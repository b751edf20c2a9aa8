import DagMempool.Lib.Run
import DagMempool.Store.LevelDBBatch
import DagMempool.Store.MemoryBatch

/-!
# The two batch stores answer alike

A store is used through six calls, and to use one is to make some of them in some
order. Whatever the order, the store in memory and the store on disk give the same
answers. They are open or closed together, and while they are open the bytes on
disk stand for the map in memory.
-/

namespace DagMempool

inductive BatchCall where
  | save (batch : Batch)
  | get (digest : Hash)
  | has (digest : Hash)
  | byRound (round : UInt64)
  | deleteBefore (round : UInt64)
  | close

inductive BatchAnswer where
  | done (result : Except GoError Unit)
  | batch (result : Except GoError Batch)
  | has (result : Bool)
  | batches (result : Except GoError (List Batch))

namespace BatchCall

def run {S : Type} [BatchStore S] [Closer S] (s : S) : BatchCall → S × List BatchAnswer
  | save b => ((BatchStore.saveBatch s b).2, [.done (BatchStore.saveBatch s b).1])
  | get d => (s, [.batch (BatchStore.getBatch s d)])
  | has d => (s, [.has (BatchStore.hasBatch s d)])
  | byRound r => (s, [.batches (BatchStore.getBatchesByRound s r)])
  | deleteBefore r =>
    ((BatchStore.deleteBatchesBefore s r).2, [.done (BatchStore.deleteBatchesBefore s r).1])
  | close => ((Closer.close s).2, [.done (Closer.close s).1])

end BatchCall

namespace BatchAnswer

/-- The same answer, with the batches of a round as a set. -/
def Same : BatchAnswer → BatchAnswer → Prop
  | batches (.ok bs), batches (.ok bs') => ∀ b, b ∈ bs ↔ b ∈ bs'
  | a, a' => a = a'

theorem Same.refl (a : BatchAnswer) : a.Same a := by
  match a with
  | .batches (.ok bs) => exact fun b => Iff.rfl
  | .batches (.error _) => exact rfl
  | .done _ => exact rfl
  | .batch _ => exact rfl
  | .has _ => exact rfl

end BatchAnswer

variable [Cramberry Batch]

/-- Both are closed, or both are open and hold the same batches. -/
def SameBatches (m : MemoryBatchStore) (s : LevelDBBatchStore) : Prop :=
  (m.closed = true ∧ s.closed = true) ∨ (m.closed = false ∧ s.Represents m.index.items.get)

namespace SameBatches

variable {m : MemoryBatchStore} {s : LevelDBBatchStore}

theorem start : SameBatches .new .new := by
  refine .inr ⟨rfl, ?_⟩
  have hnone : (MemoryBatchStore.new.index.items.get : Hash → Option Batch) = fun _ => none :=
    funext GoMap.get_empty
  rw [hnone]
  exact LevelDBBatchStore.represents_new

theorem saveBatch (h : SameBatches m s) (b : Batch) :
    SameBatches (m.saveBatch b).2 (s.saveBatch b).2 ∧ (m.saveBatch b).1 = (s.saveBatch b).1 := by
  rcases h with ⟨hm, hs⟩ | ⟨hm, hs⟩
  · rw [MemoryBatchStore.saveBatch, LevelDBBatchStore.saveBatch, if_pos hm, if_pos hs]
    exact ⟨.inl ⟨hm, hs⟩, rfl⟩
  · cases hget : m.index.items.get b.digest with
    | some b' =>
      have hsave : m.saveBatch b = (.ok (), m) := by
        simp [MemoryBatchStore.saveBatch, hm, hget]
      rw [hsave, hs.saveBatch_held (by simp [hget])]
      exact ⟨.inr ⟨hm, hs⟩, rfl⟩
    | none =>
      have hsave : m.saveBatch b = (.ok (), { m with index := m.index.insert b hget }) := by
        simp [MemoryBatchStore.saveBatch, hm, hget]
      have hheld : ∀ d, (m.index.insert b hget).items.get d =
          if d = b.digest then some b else m.index.items.get d :=
        fun d => m.index.items.get_set b.digest d b
      obtain ⟨hok, hrep⟩ := hs.saveBatch_free hget hheld
      rw [hsave, hok]
      exact ⟨.inr ⟨hm, hrep⟩, rfl⟩

theorem deleteBatchesBefore (h : SameBatches m s) (r : UInt64) :
    SameBatches (m.deleteBatchesBefore r).2 (s.deleteBatchesBefore r).2 ∧
      (m.deleteBatchesBefore r).1 = (s.deleteBatchesBefore r).1 := by
  rcases h with ⟨hm, hs⟩ | ⟨hm, hs⟩
  · rw [MemoryBatchStore.deleteBatchesBefore, LevelDBBatchStore.deleteBatchesBefore,
      if_pos hm, if_pos hs]
    exact ⟨.inl ⟨hm, hs⟩, rfl⟩
  · have hdelete : m.deleteBatchesBefore r =
        (.ok (), { m with index := m.index.drop fun r' => decide (r' < r) }) := by
      simp [MemoryBatchStore.deleteBatchesBefore, hm]
    have hheld : ∀ d b, (m.index.drop fun r' => decide (r' < r)).items.get d = some b ↔
        m.index.items.get d = some b ∧ ¬ b.round < r := by
      intro d b
      rw [RankIndex.get_drop, decide_eq_false_iff_not]
    obtain ⟨hok, hrep⟩ := hs.deleteBatchesBefore r hheld
    rw [hdelete, hok]
    exact ⟨.inr ⟨hm, hrep⟩, rfl⟩

theorem getBatch (h : SameBatches m s) (d : Hash) : m.getBatch d = s.getBatch d := by
  rcases h with ⟨hm, hs⟩ | ⟨hm, hs⟩
  · simp [MemoryBatchStore.getBatch, LevelDBBatchStore.getBatch, hm, hs]
  · rw [hs.getBatch]
    exact if_neg (Bool.eq_false_iff.mp hm)

theorem hasBatch (h : SameBatches m s) (d : Hash) : m.hasBatch d = s.hasBatch d := by
  rcases h with ⟨hm, hs⟩ | ⟨hm, hs⟩
  · simp [MemoryBatchStore.hasBatch, LevelDBBatchStore.hasBatch, hm, hs]
  · rw [hs.hasBatch, MemoryBatchStore.hasBatch, if_neg (by simp [hm]), GoMap.has]

theorem getBatchesByRound (h : SameBatches m s) (r : UInt64) :
    (BatchAnswer.batches (m.getBatchesByRound r)).Same (.batches (s.getBatchesByRound r)) := by
  rcases h with ⟨hm, hs⟩ | ⟨hm, hs⟩
  · simp only [MemoryBatchStore.getBatchesByRound, LevelDBBatchStore.getBatchesByRound, hm, hs,
      if_true]
    exact .refl _
  · obtain ⟨bs, hbs, -, hmem⟩ := hs.getBatchesByRound r
    rw [hbs, MemoryBatchStore.getBatchesByRound, if_neg (by simp [hm])]
    intro b
    rw [RankIndex.mem_atRank, hmem]

omit [Cramberry Batch] in
theorem close (m : MemoryBatchStore) (s : LevelDBBatchStore) :
    (m.close.2.closed = true ∧ s.close.2.closed = true) ∧ m.close.1 = s.close.1 := by
  rw [MemoryBatchStore.close, LevelDBBatchStore.close]
  split
  · next hs => exact ⟨⟨rfl, hs⟩, rfl⟩
  · exact ⟨⟨rfl, rfl⟩, rfl⟩

theorem run (h : SameBatches m s) (call : BatchCall) :
    SameBatches (call.run m).1 (call.run s).1 ∧
      List.Forall₂ BatchAnswer.Same (call.run m).2 (call.run s).2 := by
  have hone : ∀ {a a' : BatchAnswer}, a.Same a' → List.Forall₂ BatchAnswer.Same [a] [a'] :=
    fun ha => .cons ha .nil
  cases call with
  | save b =>
    obtain ⟨hnext, hanswer⟩ := h.saveBatch b
    exact ⟨hnext, hone (congrArg BatchAnswer.done hanswer)⟩
  | deleteBefore r =>
    obtain ⟨hnext, hanswer⟩ := h.deleteBatchesBefore r
    exact ⟨hnext, hone (congrArg BatchAnswer.done hanswer)⟩
  | close =>
    obtain ⟨hclosed, hanswer⟩ := close m s
    exact ⟨.inl hclosed, hone (congrArg BatchAnswer.done hanswer)⟩
  | get d => exact ⟨h, hone (congrArg BatchAnswer.batch (h.getBatch d))⟩
  | has d => exact ⟨h, hone (congrArg BatchAnswer.has (h.hasBatch d))⟩
  | byRound r => exact ⟨h, hone (h.getBatchesByRound r)⟩

end SameBatches

/-- Whatever is called in whatever order, both stores give the same answers. -/
theorem batch_stores_equivalent (calls : List BatchCall) :
    List.Forall₂ BatchAnswer.Same (Run.exec BatchCall.run MemoryBatchStore.new [] calls).2
      (Run.exec BatchCall.run LevelDBBatchStore.new [] calls).2 := by
  have hstep : ∀ (m : MemoryBatchStore) (s : LevelDBBatchStore) (_ : List BatchAnswer)
      (call : BatchCall), SameBatches m s → True →
      SameBatches (call.run m).1 (call.run s).1 ∧
        List.Forall₂ BatchAnswer.Same (call.run m).2 (call.run s).2 :=
    fun m s _ call h _ => h.run call
  exact (Run.exec_related hstep SameBatches.start .nil
    (Run.AllOk.of_forall (fun _ _ _ => trivial) _ _ calls)).2

end DagMempool
