import DagMempool.Lib.Run
import DagMempool.Store.LevelDBTxIndex
import DagMempool.Store.MemoryBatch
import DagMempool.Store.MemoryTxIndex
import DagMempool.Types.Ideal

/-!
# What a transaction index answers

An index is for the batches that were added and have since been neither removed nor
pruned. What it should answer is a matter of these batches alone: a transaction is
indexed when it is in one of them, and is found in one that it is in.

Both indexes have one entry for a transaction, however many of the batches it is in. An
entry that is there always leads to a batch that is still there, whatever happens. But
removing a batch can take away the entry of a transaction that a batch that stays has as
well; that is the only way in which an answer goes wrong. `IndexesBatches` is what the
two implementations have in common, and all that the argument uses.
-/

namespace DagMempool

inductive TxIndexCall where
  | addBatch (batch : Batch)
  | removeTxsForBatch (batchHash : Hash)
  | pruneOlderThan (round : UInt64)

namespace TxIndexCall

/-- The batch is still there after the call. -/
def stays (b : Batch) : TxIndexCall → Bool
  | addBatch _ => true
  | removeTxsForBatch d => b.digest ≠ d
  | pruneOlderThan r => ¬ b.round < r

/-- The batches that the call adds. -/
def added : TxIndexCall → List Batch
  | addBatch b => [b]
  | _ => []

/-- The batches that are there after a call. -/
def live (batches : List Batch) (call : TxIndexCall) : List Batch × List Unit :=
  (batches.filter call.stays ++ call.added, [])

def run {I B : Type} [TxIndex I] [BatchStore B] (batchStore : B) (idx : I) :
    TxIndexCall → I × List Unit
  | addBatch b => ((TxIndex.addBatch idx b).2, [])
  | removeTxsForBatch d => ((TxIndex.removeTxsForBatch idx d).2, [])
  | pruneOlderThan r => ((TxIndex.pruneOlderThan idx r batchStore).2, [])

end TxIndexCall

section

variable [Crypto]

namespace TxIndexCall

/-- A batch that is added is not another one than the one of its digest that is there
already, and has slots for its transactions. -/
def Addable (batches : List Batch) (call : TxIndexCall) : Prop :=
  ∀ b ∈ call.added, (∀ b' ∈ batches, b'.digest = b.digest → b' = b) ∧
    b.transactions.length ≤ 2 ^ 32

/-- No transaction of a batch that goes is in a batch that stays. -/
def Separate (batches : List Batch) (call : TxIndexCall) : Prop :=
  ∀ b ∈ batches, ∀ b' ∈ batches, call.stays b = false → call.stays b' = true →
    ∀ tx ∈ b.transactions, ¬ b'.Holds tx.hash

instance (batches : List Batch) (call : TxIndexCall) :
    Decidable (call.Addable batches ∧ call.Separate batches) := by
  unfold Addable Separate
  infer_instance

end TxIndexCall

/-- The index is right about every transaction, if it is for these batches. -/
def AnswersFor {I : Type} [TxIndex I] (idx : I) (batches : List Batch) : Prop :=
  ∀ t, (TxIndex.hasTx idx t = true ↔ ∃ b ∈ batches, b.Holds t) ∧
    ((∃ b ∈ batches, b.Holds t) →
      ∃ b ∈ batches, b.Holds t ∧ TxIndex.getBatchForTx idx t = .ok b.digest)

/-- What it is for an index to be made of some batches: what it has of a transaction is
right, and a call takes away only what the batches that go had. -/
class IndexesBatches (I : Type) [TxIndex I] where
  Represents : I → List Batch → Prop
  getBatchForTx : ∀ {idx : I} {batches : List Batch} {t : Hash}, Represents idx batches →
    TxIndex.hasTx idx t = true →
    ∃ b ∈ batches, b.Holds t ∧ TxIndex.getBatchForTx idx t = .ok b.digest
  addBatch : ∀ {idx : I} {batches : List Batch} {b : Batch}, Represents idx batches →
    (∀ b' ∈ batches, b'.digest = b.digest → b' = b) → b.transactions.length ≤ 2 ^ 32 →
    Represents (TxIndex.addBatch idx b).2 (batches ++ [b]) ∧
      ∀ t, TxIndex.hasTx idx t = true ∨ (b ∉ batches ∧ b.Holds t) →
        TxIndex.hasTx (TxIndex.addBatch idx b).2 t = true
  removeTxsForBatch : ∀ {idx : I} {batches : List Batch} (d : Hash), Represents idx batches →
    Represents (TxIndex.removeTxsForBatch idx d).2 (batches.filter fun b => b.digest ≠ d) ∧
      ∀ t, TxIndex.hasTx idx t = true → (∀ b ∈ batches, b.digest = d → ¬ b.Holds t) →
        TxIndex.hasTx (TxIndex.removeTxsForBatch idx d).2 t = true
  pruneOlderThan : ∀ {idx : I} {batches : List Batch} {B : Type} [BatchStore B] (round : UInt64)
    (batchStore : B), Represents idx batches →
    Represents (TxIndex.pruneOlderThan idx round batchStore).2
        (batches.filter fun b => ¬ b.round < round) ∧
      ∀ t, TxIndex.hasTx idx t = true → (∀ b ∈ batches, b.round < round → ¬ b.Holds t) →
        TxIndex.hasTx (TxIndex.pruneOlderThan idx round batchStore).2 t = true

namespace IndexesBatches

variable {I B : Type} [TxIndex I] [IndexesBatches I] [BatchStore B] {idx : I} {batches : List Batch}

/-- What a call does to the batches, and which entries it leaves at least. -/
theorem run {call : TxIndexCall} (batchStore : B) (h : Represents idx batches)
    (hadd : call.Addable batches) :
    Represents (call.run batchStore idx).1 (call.live batches).1 ∧
      ∀ t, TxIndex.hasTx idx t = true ∨ (∃ b ∈ call.added, b ∉ batches ∧ b.Holds t) →
        (∀ b ∈ batches, call.stays b = false → ¬ b.Holds t) →
        TxIndex.hasTx (call.run batchStore idx).1 t = true := by
  cases call with
  | addBatch b =>
    obtain ⟨hsame, hlen⟩ := hadd b List.mem_cons_self
    obtain ⟨hrep, hhas⟩ := addBatch h hsame hlen
    have hlive : ((TxIndexCall.addBatch b).live batches).1 = batches ++ [b] :=
      congrArg (· ++ [b]) (List.filter_eq_self.mpr fun _ _ => rfl)
    rw [hlive]
    refine ⟨hrep, fun t ht _ => hhas t (ht.imp_right fun hnew => ?_)⟩
    obtain ⟨b', hb', hfresh, hin⟩ := hnew
    obtain rfl := List.mem_singleton.mp hb'
    exact ⟨hfresh, hin⟩
  | removeTxsForBatch d =>
    obtain ⟨hrep, hhas⟩ := removeTxsForBatch d h
    rw [show ((TxIndexCall.removeTxsForBatch d).live batches).1 =
      batches.filter fun b => b.digest ≠ d from List.append_nil _]
    refine ⟨hrep, fun t ht hclear => hhas t ?_ fun b hb hd => hclear b hb ?_⟩
    · exact ht.resolve_right fun ⟨b, hb, _⟩ => absurd hb (by simp [TxIndexCall.added])
    · simp [TxIndexCall.stays, hd]
  | pruneOlderThan r =>
    obtain ⟨hrep, hhas⟩ := pruneOlderThan r batchStore h
    rw [show ((TxIndexCall.pruneOlderThan r).live batches).1 =
      batches.filter fun b => ¬ b.round < r from List.append_nil _]
    refine ⟨hrep, fun t ht hclear => hhas t ?_ fun b hb hlt => hclear b hb ?_⟩
    · exact ht.resolve_right fun ⟨b, hb, _⟩ => absurd hb (by simp [TxIndexCall.added])
    · simp [TxIndexCall.stays, hlt]

theorem answersFor (h : Represents idx batches)
    (hall : ∀ b ∈ batches, ∀ t, b.Holds t → TxIndex.hasTx idx t = true) :
    AnswersFor idx batches := by
  intro t
  constructor
  · constructor
    · intro hhas
      obtain ⟨b, hb, hin, -⟩ := getBatchForTx h hhas
      exact ⟨b, hb, hin⟩
    · intro ⟨b, hb, hin⟩
      exact hall b hb t hin
  · intro ⟨b, hb, hin⟩
    exact getBatchForTx h (hall b hb t hin)

theorem run_answersFor {call : TxIndexCall} (batchStore : B)
    (h : Represents idx batches ∧ AnswersFor idx batches) (hadd : call.Addable batches)
    (hsep : call.Separate batches) :
    Represents (call.run batchStore idx).1 (call.live batches).1 ∧
      AnswersFor (call.run batchStore idx).1 (call.live batches).1 := by
  obtain ⟨hrep, hhas⟩ := run batchStore h.1 hadd
  refine ⟨hrep, answersFor hrep fun b hb t hin => ?_⟩
  -- A batch that is added stays with all the others, so no transaction goes.
  have hadds : ∀ b ∈ call.added, ∀ b' ∈ batches, call.stays b' = true := by
    cases call with
    | addBatch b => exact fun _ _ _ _ => rfl
    | removeTxsForBatch | pruneOlderThan =>
      exact fun _ hb => absurd hb (by simp [TxIndexCall.added])
  by_cases hold : b ∈ batches
  · refine hhas t (.inl ((h.2 t).1.mpr ⟨b, hold, hin⟩)) fun b' hb' hgone hin' => ?_
    have hstay : call.stays b = true := by
      rcases List.mem_append.mp hb with hb | hb
      · exact (List.mem_filter.mp hb).2
      · exact hadds b hb b hold
    obtain ⟨tx, htx, rfl⟩ := List.mem_map.mp hin'
    exact hsep b' hb' b hold hgone hstay tx htx hin
  · rcases List.mem_append.mp hb with hb | hb
    · exact absurd (List.mem_filter.mp hb).1 hold
    · refine hhas t (.inr ⟨b, hb, hold, hin⟩) fun b' hb' hgone => ?_
      rw [hadds b hb b' hb'] at hgone
      cases hgone

theorem exec_answersFor (batchStore : B) (h : Represents idx []) {calls : List TxIndexCall}
    (hcalls : Run.AllOk TxIndexCall.live
      (fun batches _ call => call.Addable batches ∧ call.Separate batches) [] [] calls) :
    AnswersFor (Run.exec (TxIndexCall.run batchStore) idx [] calls).1
      (Run.exec TxIndexCall.live [] [] calls).1 := by
  have hempty : AnswersFor idx [] := answersFor h fun b hb => absurd hb (by simp)
  have hstep : ∀ (batches : List Batch) (idx : I) (_ : List Unit) (call : TxIndexCall),
      Represents idx batches ∧ AnswersFor idx batches →
      call.Addable batches ∧ call.Separate batches →
      (Represents (call.run batchStore idx).1 (call.live batches).1 ∧
        AnswersFor (call.run batchStore idx).1 (call.live batches).1) ∧
      List.Forall₂ (fun _ _ : Unit => True) (call.live batches).2
        (call.run batchStore idx).2 := by
    intro batches idx _ call hidx hcall
    refine ⟨run_answersFor batchStore hidx hcall.1 hcall.2, ?_⟩
    cases call <;> exact .nil
  exact (Run.exec_related (R := fun batches idx => Represents idx batches ∧ AnswersFor idx batches)
    hstep ⟨h, hempty⟩ .nil hcalls).1.2

end IndexesBatches

instance : IndexesBatches MemoryTxIndex where
  Represents := MemoryTxIndex.Represents
  getBatchForTx h hhas := h.getBatchForTx hhas
  addBatch h hsame _ := by
    obtain ⟨hrep, hhas⟩ := h.addBatch hsame
    exact ⟨hrep, fun t ht => (hhas t).mpr (ht.imp_right fun hnew => hnew.2)⟩
  removeTxsForBatch d h := h.removeTxsForBatch d
  pruneOlderThan round _ h := h.pruneOlderThan round

instance : IndexesBatches LevelDBTxIndex where
  Represents := LevelDBTxIndex.Represents
  getBatchForTx h hhas := h.getBatchForTx hhas
  addBatch {idx batches b} h hsame hlen := by
    change (idx.addBatch b).2.Represents (batches ++ [b]) ∧
      ∀ t, idx.hasTx t = true ∨ (b ∉ batches ∧ b.Holds t) → (idx.addBatch b).2.hasTx t = true
    by_cases hb : b ∈ batches
    · rw [h.addBatch_live hb]
      refine ⟨h.congr fun b' => ?_, fun t ht => ht.resolve_right fun hnew => hnew.1 hb⟩
      rw [List.mem_append, List.mem_singleton]
      exact ⟨fun hb' => hb'.elim id fun he => he ▸ hb, .inl⟩
    · obtain ⟨hrep, hhas⟩ := h.addBatch_new
        (fun b' hb' hd => hb (hsame b' hb' hd ▸ hb')) hlen
      exact ⟨hrep, fun t ht => (hhas t).mpr (ht.imp_right fun hnew => hnew.2)⟩
  removeTxsForBatch {idx batches} d h := by
    obtain ⟨-, hrep, hhas⟩ := h.removeBatchLocked d
    have hremove : idx.removeTxsForBatch d = idx.removeBatchLocked d := by
      simp [LevelDBTxIndex.removeTxsForBatch, h.opened]
    change (idx.removeTxsForBatch d).2.Represents _ ∧
      ∀ t, idx.hasTx t = true → _ → (idx.removeTxsForBatch d).2.hasTx t = true
    rw [hremove]
    exact ⟨hrep, fun t ht hclear => (hhas t).mpr ⟨ht, hclear⟩⟩
  pruneOlderThan round _ h := by
    obtain ⟨hrep, hhas⟩ := h.pruneOlderThan round
    exact ⟨hrep, fun t ht hclear => (hhas t).mpr ⟨ht, hclear⟩⟩

/-- As long as no transaction goes with one batch and stays with another, both indexes
answer for the batches that are there. -/
theorem txIndex_answers {B : Type} [BatchStore B] (batchStore : B) (calls : List TxIndexCall)
    (hcalls : Run.AllOk TxIndexCall.live
      (fun batches _ call => call.Addable batches ∧ call.Separate batches) [] [] calls) :
    AnswersFor (Run.exec (TxIndexCall.run batchStore) MemoryTxIndex.new [] calls).1
        (Run.exec TxIndexCall.live [] [] calls).1 ∧
      AnswersFor (Run.exec (TxIndexCall.run batchStore) LevelDBTxIndex.new [] calls).1
        (Run.exec TxIndexCall.live [] [] calls).1 :=
  ⟨IndexesBatches.exec_answersFor batchStore MemoryTxIndex.represents_new hcalls,
    IndexesBatches.exec_answersFor batchStore LevelDBTxIndex.represents_new hcalls⟩

end

section

attribute [local instance] idealCrypto

/-- A batch of one worker with the transactions listed. -/
def idealBatch (round : UInt64) (txs : List Transaction) : Batch := Batch.new 0 0 round txs 0

/-- Two batches of round `0` share a transaction and are pruned together; a third one
stays. -/
def sharingCalls : List TxIndexCall :=
  [.addBatch (idealBatch 0 [[1], [2]]), .addBatch (idealBatch 0 [[1], [3]]),
    .addBatch (idealBatch 1 [[4]]), .pruneOlderThan 1]

theorem txIndex_answers_ideal :
    Run.AllOk TxIndexCall.live
      (fun batches _ call => call.Addable batches ∧ call.Separate batches) [] [] sharingCalls ∧
    AnswersFor (Run.exec (TxIndexCall.run MemoryBatchStore.new) MemoryTxIndex.new []
        sharingCalls).1 (Run.exec TxIndexCall.live [] [] sharingCalls).1 ∧
    AnswersFor (Run.exec (TxIndexCall.run MemoryBatchStore.new) LevelDBTxIndex.new []
        sharingCalls).1 (Run.exec TxIndexCall.live [] [] sharingCalls).1 := by
  have hcalls : Run.AllOk TxIndexCall.live
      (fun batches _ call => call.Addable batches ∧ call.Separate batches) [] []
      sharingCalls := by decide +kernel
  exact ⟨hcalls, txIndex_answers MemoryBatchStore.new sharingCalls hcalls⟩

/-- Of two batches that share a transaction the first is removed. -/
def partingCalls : List TxIndexCall :=
  [.addBatch (idealBatch 0 [[1], [2]]), .addBatch (idealBatch 0 [[1], [3]]),
    .removeTxsForBatch (idealBatch 0 [[1], [2]]).digest]

/-- The second is still there, and neither index knows the transaction any more. -/
theorem txIndex_forgets :
    (Run.exec TxIndexCall.live [] [] partingCalls).1 = [idealBatch 0 [[1], [3]]] ∧
      (idealBatch 0 [[1], [3]]).Holds (Transaction.hash [1]) ∧
    ¬ AnswersFor (Run.exec (TxIndexCall.run MemoryBatchStore.new) MemoryTxIndex.new []
        partingCalls).1 (Run.exec TxIndexCall.live [] [] partingCalls).1 ∧
    ¬ AnswersFor (Run.exec (TxIndexCall.run MemoryBatchStore.new) LevelDBTxIndex.new []
        partingCalls).1 (Run.exec TxIndexCall.live [] [] partingCalls).1 := by
  have hlive : (Run.exec TxIndexCall.live [] [] partingCalls).1 = [idealBatch 0 [[1], [3]]] := by
    decide +kernel
  have hin : (idealBatch 0 [[1], [3]]).Holds (Transaction.hash [1]) := by decide +kernel
  have hmemory : TxIndex.hasTx (Run.exec (TxIndexCall.run MemoryBatchStore.new) MemoryTxIndex.new
      [] partingCalls).1 (Transaction.hash [1]) = false := by decide +kernel
  have hdisk : TxIndex.hasTx (Run.exec (TxIndexCall.run MemoryBatchStore.new) LevelDBTxIndex.new
      [] partingCalls).1 (Transaction.hash [1]) = false := by decide +kernel
  refine ⟨hlive, hin, fun hright => ?_, fun hright => ?_⟩
  · have hhas := (hright (Transaction.hash [1])).1.mpr ⟨_, hlive ▸ List.mem_singleton_self _, hin⟩
    rw [hmemory] at hhas
    cases hhas
  · have hhas := (hright (Transaction.hash [1])).1.mpr ⟨_, hlive ▸ List.mem_singleton_self _, hin⟩
    rw [hdisk] at hhas
    cases hhas

end

end DagMempool
