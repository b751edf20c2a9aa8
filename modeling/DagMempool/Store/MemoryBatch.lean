import DagMempool.Lib.RankIndex
import DagMempool.Store.Store

/-!
# The in-memory batch store

Batches by digest, and the digests of each round: a `RankIndex`, which carries
the agreement of the two maps with it. Once closed, every operation answers
`ErrNotRunning` and changes nothing.
-/

namespace DagMempool

structure MemoryBatchStore where
  index : RankIndex Batch.digest Batch.round
  closed : Bool

namespace MemoryBatchStore

def new : MemoryBatchStore := { index := .empty, closed := false }

def saveBatch (s : MemoryBatchStore) (b : Batch) : Except GoError Unit × MemoryBatchStore :=
  if s.closed then (.error .notRunning, s)
  else if h : s.index.items.get b.digest = none then
    (.ok (), { s with index := s.index.insert b h })
  else (.ok (), s)

def getBatch (s : MemoryBatchStore) (digest : Hash) : Except GoError Batch :=
  if s.closed then .error .notRunning
  else match s.index.items.get digest with
    | none => .error .batchNotFound
    | some batch => .ok batch

def hasBatch (s : MemoryBatchStore) (digest : Hash) : Bool :=
  if s.closed then false else s.index.items.has digest

def getBatchesByRound (s : MemoryBatchStore) (round : UInt64) : Except GoError (List Batch) :=
  if s.closed then .error .notRunning else .ok (s.index.atRank round)

/-- Deletions commute, so the order in which the rounds below `round` come out of
the iteration over the map does not show. -/
def deleteBatchesBefore (s : MemoryBatchStore) (round : UInt64) :
    Except GoError Unit × MemoryBatchStore :=
  if s.closed then (.error .notRunning, s)
  else (.ok (), { s with index := s.index.drop fun r => decide (r < round) })

def close (_ : MemoryBatchStore) : Except GoError Unit × MemoryBatchStore :=
  (.ok (), { index := .empty, closed := true })

instance : BatchStore MemoryBatchStore where
  saveBatch := saveBatch
  getBatch := getBatch
  hasBatch := hasBatch
  getBatchesByRound := getBatchesByRound
  deleteBatchesBefore := deleteBatchesBefore

instance : Closer MemoryBatchStore where
  close := close

/-! ## The laws -/

variable {s : MemoryBatchStore}

theorem getBatch_eq_ok {d : Hash} {b : Batch} :
    s.getBatch d = .ok b ↔ s.closed = false ∧ s.index.items.get d = some b := by
  unfold getBatch
  cases s.closed with
  | true => simp
  | false =>
    cases s.index.items.get d with
    | none => simp
    | some b' => simp

theorem hasBatch_eq_true {d : Hash} :
    s.hasBatch d = true ↔ s.closed = false ∧ ∃ b, s.index.items.get d = some b := by
  unfold hasBatch
  cases s.closed with
  | true => simp
  | false => simp [GoMap.has_iff]

theorem saveBatch_cases (s : MemoryBatchStore) (b : Batch) :
    (s.saveBatch b).2 = s ∨
    (s.index.items.get b.digest = none ∧ (s.saveBatch b).2.closed = s.closed ∧
      (s.saveBatch b).2.index.items = s.index.items.set b.digest b) := by
  unfold saveBatch
  split
  · exact .inl rfl
  · split
    · next hfree => exact .inr ⟨hfree, rfl, rfl⟩
    · exact .inl rfl

theorem deleteBatchesBefore_getBatch {r : UInt64} {d : Hash} {b : Batch}
    (hopen : s.closed = false) :
    (s.deleteBatchesBefore r).2.getBatch d = .ok b ↔ s.getBatch d = .ok b ∧ r ≤ b.round := by
  unfold deleteBatchesBefore
  simp only [hopen, Bool.false_eq_true, if_false, getBatch_eq_ok, true_and]
  rw [RankIndex.get_drop, decide_eq_false_iff_not, UInt64.not_lt]

theorem deleteBatchesBefore_closed {r : UInt64} (hc : s.closed = true) :
    s.deleteBatchesBefore r = (.error .notRunning, s) := by
  simp [deleteBatchesBefore, hc]

instance : LawfulBatchStore MemoryBatchStore where
  hasBatch_iff {s d} := by
    change s.hasBatch d = true ↔ ∃ b, s.getBatch d = .ok b
    simp only [hasBatch_eq_true, getBatch_eq_ok]
    exact ⟨fun ⟨hc, b, hb⟩ => ⟨b, hc, hb⟩, fun ⟨b, hc, hb⟩ => ⟨hc, b, hb⟩⟩
  digest_eq {s d b} h := s.index.keyed (getBatch_eq_ok.mp h).2
  getBatch_save {s b b' d} h := by
    have h : (s.saveBatch b).2.getBatch d = .ok b' := h
    change s.getBatch d = .ok b' ∨ b' = b ∧ ∀ b'', s.getBatch d ≠ .ok b''
    rcases saveBatch_cases s b with hs | ⟨hfree, hc, hmap⟩
    · rw [hs] at h
      exact .inl h
    · obtain ⟨hopen, hget⟩ := getBatch_eq_ok.mp h
      rw [hc] at hopen
      rw [hmap] at hget
      rcases GoMap.get_set_eq_some hget with ⟨rfl, rfl⟩ | ⟨-, hold⟩
      · refine .inr ⟨rfl, fun b'' hb'' => ?_⟩
        rw [getBatch_eq_ok, hfree] at hb''
        exact absurd hb''.2 (by simp)
      · exact .inl (getBatch_eq_ok.mpr ⟨hopen, hold⟩)
  save_keeps {s b b' d} h := by
    change (s.saveBatch b).2.getBatch d = .ok b'
    rcases saveBatch_cases s b with hs | ⟨hfree, hc, hmap⟩
    · rw [hs]
      exact h
    · obtain ⟨hopen, hget⟩ := getBatch_eq_ok.mp h
      rw [getBatch_eq_ok, hc, hmap]
      refine ⟨hopen, ?_⟩
      rw [GoMap.get_set_ne]
      · exact hget
      · intro he
        rw [he, hfree] at hget
        cases hget
  byRound {s r bs b} h := by
    have h : s.getBatchesByRound r = .ok bs := h
    change b ∈ bs ↔ s.getBatch b.digest = .ok b ∧ b.round = r
    unfold getBatchesByRound at h
    split at h
    · cases h
    · next hc =>
        have hopen : s.closed = false := by simpa using hc
        cases h
        rw [RankIndex.mem_atRank, getBatch_eq_ok, hopen]
        simp
  getBatch_delete {s r d b} h := by
    have h : (s.deleteBatchesBefore r).2.getBatch d = .ok b := h
    cases hc : s.closed with
    | true => rw [deleteBatchesBefore_closed hc] at h; exact h
    | false => exact ((deleteBatchesBefore_getBatch hc).mp h).1
  delete_keeps {s r d b} h hle := by
    exact (deleteBatchesBefore_getBatch (getBatch_eq_ok.mp h).1).mpr ⟨h, hle⟩
  delete_removes {s r d b} hok h := by
    cases hc : s.closed with
    | true =>
      have hok : (s.deleteBatchesBefore r).1 = .ok () := hok
      rw [deleteBatchesBefore_closed hc] at hok
      cases hok
    | false => exact ((deleteBatchesBefore_getBatch hc).mp h).2

instance : ReportsSaves MemoryBatchStore where
  has_of_ok {s b} h := by
    change (s.saveBatch b).1 = .ok () at h
    show (s.saveBatch b).2.hasBatch b.digest = true
    rw [hasBatch_eq_true]
    unfold saveBatch at h ⊢
    split at h
    · cases h
    · next hopen =>
        rw [if_neg hopen]
        by_cases hfree : s.index.items.get b.digest = none
        · rw [dif_pos hfree]
          exact ⟨Bool.eq_false_iff.mpr hopen, b, GoMap.get_set_self _ _ _⟩
        · rw [dif_neg hfree]
          exact ⟨Bool.eq_false_iff.mpr hopen, Option.ne_none_iff_exists'.mp hfree⟩
  eq_of_error {s b err} h := by
    change (s.saveBatch b).1 = .error err at h
    show (s.saveBatch b).2 = s
    unfold saveBatch at h ⊢
    split at h
    · next hclosed => rw [if_pos hclosed]
    · split at h
      · cases h
      · cases h

/-- Until it is closed the store takes everything. -/
instance : AcceptingBatchStore MemoryBatchStore where
  accepts s := s.closed = false
  save_ok {s} b h := by
    show (s.saveBatch b).1 = .ok ()
    rw [saveBatch, if_neg (by simp [h])]
    split <;> rfl
  accepts_save {s} b h := by
    show (s.saveBatch b).2.closed = false
    rw [saveBatch, if_neg (by simp [h])]
    split <;> exact h

end MemoryBatchStore

end DagMempool
