import DagMempool.Store.Store

/-!
# The in-memory transaction index

Transaction hash to batch hash, the transactions of each batch, and the round of
each batch that was indexed as a whole. `AddBatch` leaves a transaction with the
batch it was first indexed for; `RemoveTxsForBatch` forgets the transactions of a
batch but not its round, which `PruneOlderThan` removes.
-/

namespace DagMempool

structure MemoryTxIndex where
  txToBatch : GoMap Hash Hash
  batchToTxs : GoMap Hash (List Hash)
  batchRounds : GoMap Hash UInt64
  closed : Bool

namespace MemoryTxIndex

def new : MemoryTxIndex :=
  { txToBatch := ∅, batchToTxs := ∅, batchRounds := ∅, closed := false }

/-- Both maps, with one transaction more in a batch. -/
def index (idx : MemoryTxIndex) (txHash batchHash : Hash) : MemoryTxIndex :=
  { idx with
    txToBatch := idx.txToBatch.set txHash batchHash
    batchToTxs := idx.batchToTxs.set batchHash
      ((idx.batchToTxs.get batchHash).getD [] ++ [txHash]) }

def addTx (idx : MemoryTxIndex) (txHash batchHash : Hash) :
    Except GoError Unit × MemoryTxIndex :=
  if idx.closed then (.error .notRunning, idx)
  else match idx.txToBatch.get txHash with
    | some existing =>
      if existing = batchHash then (.ok (), idx) else (.error .txAlreadyExists, idx)
    | none => (.ok (), idx.index txHash batchHash)

def addBatch [Crypto] (idx : MemoryTxIndex) (batch : Batch) :
    Except GoError Unit × MemoryTxIndex :=
  if idx.closed then (.error .notRunning, idx)
  else
    let idx := { idx with batchRounds := idx.batchRounds.set batch.digest batch.round }
    (.ok (), batch.transactions.foldl (fun idx tx =>
      if idx.txToBatch.has tx.hash then idx else idx.index tx.hash batch.digest) idx)

def getBatchForTx (idx : MemoryTxIndex) (txHash : Hash) : Except GoError Hash :=
  if idx.closed then .error .notRunning
  else match idx.txToBatch.get txHash with
    | none => .error .batchNotFound
    | some batchHash => .ok batchHash

def hasTx (idx : MemoryTxIndex) (txHash : Hash) : Bool :=
  if idx.closed then false else idx.txToBatch.has txHash

/-- The transactions of a batch, forgotten, and the batch's list with them. -/
def forget (idx : MemoryTxIndex) (batchHash : Hash) : MemoryTxIndex :=
  match idx.batchToTxs.get batchHash with
  | none => idx
  | some txHashes =>
    { idx with
      txToBatch := idx.txToBatch.delAll txHashes
      batchToTxs := idx.batchToTxs.del batchHash }

def removeTxsForBatch (idx : MemoryTxIndex) (batchHash : Hash) :
    Except GoError Unit × MemoryTxIndex :=
  if idx.closed then (.error .notRunning, idx) else (.ok (), idx.forget batchHash)

def pruneOlderThan (idx : MemoryTxIndex) (round : UInt64) :
    Except GoError Nat × MemoryTxIndex :=
  if idx.closed then (.error .notRunning, idx)
  else
    let batchesToPrune := (idx.batchRounds.filter fun _ r => decide (r < round)).keys
    (.ok batchesToPrune.length, batchesToPrune.foldl (fun idx batchHash =>
      { idx.forget batchHash with batchRounds := idx.batchRounds.del batchHash }) idx)

instance [Crypto] : TxIndex MemoryTxIndex where
  addTx := addTx
  addBatch := addBatch
  getBatchForTx := getBatchForTx
  hasTx := hasTx
  removeTxsForBatch := removeTxsForBatch
  pruneOlderThan idx round _ := pruneOlderThan idx round

/-! ## An open index takes every batch -/

variable [Crypto]

theorem indexAll_spec (batchHash : Hash) (txs : List Transaction) (idx : MemoryTxIndex)
    (h : Hash) :
    let indexed := txs.foldl (fun (idx : MemoryTxIndex) (tx : Transaction) =>
      if idx.txToBatch.has tx.hash then idx else idx.index tx.hash batchHash) idx
    indexed.closed = idx.closed ∧
      (indexed.txToBatch.has h = true ↔
        idx.txToBatch.has h = true ∨ h ∈ txs.map Transaction.hash) := by
  induction txs generalizing idx with
  | nil => exact ⟨rfl, by simp⟩
  | cons tx txs ih =>
    dsimp only at ih ⊢
    rw [List.foldl_cons, List.map_cons, List.mem_cons]
    obtain ⟨hclosed, hhas⟩ := ih
      (if idx.txToBatch.has tx.hash then idx else idx.index tx.hash batchHash)
    rw [hclosed, hhas]
    split
    · next hin =>
        refine ⟨rfl, ?_⟩
        constructor
        · rintro (hold | hmem)
          · exact .inl hold
          · exact .inr (.inr hmem)
        · rintro (hold | rfl | hmem)
          · exact .inl hold
          · exact .inl hin
          · exact .inr hmem
    · refine ⟨rfl, ?_⟩
      rw [index, GoMap.has_set]
      tauto

variable {idx : MemoryTxIndex}

omit [Crypto] in
theorem hasTx_of_open (hopen : idx.closed = false) (h : Hash) :
    idx.hasTx h = idx.txToBatch.has h := by
  simp [hasTx, hopen]

/-- What an open index is after a batch, for one hash. -/
theorem addBatch_spec (hopen : idx.closed = false) (b : Batch) (h : Hash) :
    (idx.addBatch b).2.closed = false ∧
      ((idx.addBatch b).2.txToBatch.has h = true ↔
        idx.txToBatch.has h = true ∨ h ∈ b.transactions.map Transaction.hash) := by
  obtain ⟨hclosed, hhas⟩ := indexAll_spec b.digest b.transactions
    { idx with batchRounds := idx.batchRounds.set b.digest b.round } h
  unfold addBatch
  rw [if_neg (Bool.eq_false_iff.mp hopen)]
  exact ⟨hclosed.trans hopen, hhas⟩

instance : AcceptingTxIndex MemoryTxIndex where
  accepts _ idx := idx.closed = false
  hasTx_addBatch {_ idx b h} hopen _ hin := by
    obtain ⟨hclosed, hhas⟩ := addBatch_spec hopen b h
    have hin : idx.hasTx h = true ∨ _ := hin
    change (idx.addBatch b).2.hasTx h = true
    rw [hasTx_of_open hopen] at hin
    rw [hasTx_of_open hclosed, hhas]
    exact hin
  accepts_addBatch {_ _ b} hopen _ := (addBatch_spec hopen b b.digest).1

/-! ## What the maps stand for -/

/-- The list of a batch has the transactions that lead to it. -/
def Owned (idx : MemoryTxIndex) : Prop :=
  ∀ t d, idx.txToBatch.get t = some d ↔ t ∈ (idx.batchToTxs.get d).getD []

omit [Crypto] in
theorem Owned.index (h : idx.Owned) {t : Hash} (d : Hash) (hfree : idx.txToBatch.get t = none) :
    (idx.index t d).Owned := by
  intro t' d'
  show (idx.txToBatch.set t d).get t' = some d' ↔
    t' ∈ ((idx.batchToTxs.set d ((idx.batchToTxs.get d).getD [] ++ [t])).get d').getD []
  rw [GoMap.get_set, GoMap.get_set]
  by_cases ht : t' = t
  · subst ht
    have hnot : t' ∉ (idx.batchToTxs.get d').getD [] := by
      rw [← h t' d', hfree]
      simp
    by_cases hd : d' = d
    · subst hd
      simp
    · simp [hd, Ne.symm hd, hnot]
  · by_cases hd : d' = d
    · subst hd
      simp [ht, h t' d']
    · simp [ht, hd, h t' d']

omit [Crypto] in
theorem forget_fields (idx : MemoryTxIndex) (d : Hash) :
    (idx.forget d).closed = idx.closed ∧ (idx.forget d).batchRounds = idx.batchRounds := by
  unfold forget
  split <;> exact ⟨rfl, rfl⟩

omit [Crypto] in
theorem Owned.forget (h : idx.Owned) (d : Hash) :
    (idx.forget d).Owned ∧ ∀ t d', (idx.forget d).txToBatch.get t = some d' ↔
      idx.txToBatch.get t = some d' ∧ d' ≠ d := by
  unfold MemoryTxIndex.forget
  cases hd : idx.batchToTxs.get d with
  | none =>
    refine ⟨h, fun t d' => ⟨fun hget => ⟨hget, fun he => ?_⟩, fun hget => hget.1⟩⟩
    rw [h t d', he, hd] at hget
    cases hget
  | some ts =>
    have hget : ∀ t d', (idx.txToBatch.delAll ts).get t = some d' ↔
        idx.txToBatch.get t = some d' ∧ d' ≠ d := by
      intro t d'
      have hts : t ∈ ts ↔ idx.txToBatch.get t = some d := by rw [h t d, hd]; rfl
      rw [GoMap.get_delAll_eq_some, hts, and_comm]
      refine and_congr_right fun hold => ?_
      rw [hold, Option.some.injEq]
    refine ⟨fun t d' => ?_, hget⟩
    rw [hget, h t d', GoMap.get_del]
    by_cases hd' : d' = d
    · simp [hd']
    · simp [hd']

/-- What indexing a list of transactions does to the transactions that lead somewhere. -/
theorem Owned.indexAll (h : idx.Owned) (batchHash : Hash) (txs : List Transaction) :
    let indexed := txs.foldl (fun (idx : MemoryTxIndex) (tx : Transaction) =>
      if idx.txToBatch.has tx.hash then idx else idx.index tx.hash batchHash) idx
    indexed.Owned ∧ indexed.batchRounds = idx.batchRounds ∧
      ∀ t d, indexed.txToBatch.get t = some d →
        idx.txToBatch.get t = some d ∨ d = batchHash ∧ t ∈ txs.map Transaction.hash := by
  induction txs generalizing idx with
  | nil => exact ⟨h, rfl, fun t d hget => .inl hget⟩
  | cons tx txs ih =>
    rw [List.foldl_cons, List.map_cons]
    by_cases hhas : idx.txToBatch.has tx.hash = true
    · rw [if_pos hhas]
      obtain ⟨howned, hrounds, hget⟩ := ih h
      refine ⟨howned, hrounds, fun t d hd => (hget t d hd).imp_right fun hnew => ?_⟩
      exact ⟨hnew.1, List.mem_cons_of_mem _ hnew.2⟩
    · rw [if_neg hhas]
      have hfree : idx.txToBatch.get tx.hash = none := by
        simpa [GoMap.has] using hhas
      obtain ⟨howned, hrounds, hget⟩ := ih (h.index batchHash hfree)
      refine ⟨howned, hrounds, fun t d hd => ?_⟩
      rcases hget t d hd with hold | ⟨hd, ht⟩
      · rcases GoMap.get_set_eq_some hold with ⟨rfl, rfl⟩ | ⟨-, hold⟩
        · exact .inr ⟨rfl, List.mem_cons_self⟩
        · exact .inl hold
      · exact .inr ⟨hd, List.mem_cons_of_mem _ ht⟩

/-- The index is open and made of these batches: every transaction that leads somewhere
leads to one of them that it is in, and they have their rounds. It does not say that
every transaction of theirs leads somewhere. -/
structure Represents (idx : MemoryTxIndex) (live : List Batch) : Prop where
  opened : idx.closed = false
  owned : idx.Owned
  distinct : ∀ {b b'}, b ∈ live → b' ∈ live → b'.digest = b.digest → b' = b
  known : ∀ {t d}, idx.txToBatch.get t = some d → ∃ b ∈ live, b.digest = d ∧ b.Holds t
  round : ∀ {b}, b ∈ live → idx.batchRounds.get b.digest = some b.round

theorem represents_new : new.Represents [] where
  opened := rfl
  owned t d := by simp [new]
  distinct h := absurd h (by simp)
  known h := absurd h GoMap.get_empty_ne
  round h := absurd h (by simp)

namespace Represents

variable {idx : MemoryTxIndex} {live : List Batch}

theorem hasTx (h : idx.Represents live) (t : Hash) :
    idx.hasTx t = true ↔ ∃ d, idx.txToBatch.get t = some d := by
  rw [hasTx_of_open h.opened, GoMap.has_iff]

theorem getBatchForTx (h : idx.Represents live) {t : Hash} (hhas : idx.hasTx t = true) :
    ∃ b ∈ live, b.Holds t ∧ idx.getBatchForTx t = .ok b.digest := by
  obtain ⟨d, hd⟩ := (h.hasTx t).mp hhas
  obtain ⟨b, hb, rfl, hin⟩ := h.known hd
  exact ⟨b, hb, hin, by simp [MemoryTxIndex.getBatchForTx, h.opened, hd]⟩

theorem addBatch (h : idx.Represents live) {b : Batch}
    (hsame : ∀ b' ∈ live, b'.digest = b.digest → b' = b) :
    (idx.addBatch b).2.Represents (live ++ [b]) ∧
      ∀ t, (idx.addBatch b).2.hasTx t = true ↔ idx.hasTx t = true ∨ b.Holds t := by
  have hset : Owned { idx with batchRounds := idx.batchRounds.set b.digest b.round } := h.owned
  obtain ⟨howned, hrounds, hget⟩ := hset.indexAll b.digest b.transactions
  have hlive : ∀ {b'}, b' ∈ live ++ [b] ↔ b' ∈ live ∨ b' = b := by simp
  have hopen := fun t => addBatch_spec h.opened b t
  have hadd : (idx.addBatch b).2 = b.transactions.foldl (fun idx tx =>
      if idx.txToBatch.has tx.hash then idx else idx.index tx.hash b.digest)
      { idx with batchRounds := idx.batchRounds.set b.digest b.round } := by
    simp [MemoryTxIndex.addBatch, h.opened]
  refine ⟨⟨(hopen 0).1, hadd ▸ howned, ?_, ?_, ?_⟩, fun t => ?_⟩
  · intro b₁ b₂ hb₁ hb₂ hd
    rcases hlive.mp hb₁ with hb₁ | hb₁ <;> rcases hlive.mp hb₂ with hb₂ | hb₂
    · exact h.distinct hb₁ hb₂ hd
    · rw [hb₂, hsame b₁ hb₁ (hb₂ ▸ hd.symm)]
    · rw [hb₁, hsame b₂ hb₂ (hb₁ ▸ hd)]
    · rw [hb₁, hb₂]
  · intro t d hd
    rw [hadd] at hd
    rcases hget t d hd with hold | ⟨rfl, hin⟩
    · obtain ⟨b', hb', hd, hin⟩ := h.known hold
      exact ⟨b', hlive.mpr (.inl hb'), hd, hin⟩
    · exact ⟨b, hlive.mpr (.inr rfl), rfl, hin⟩
  · intro b' hb'
    rw [hadd, hrounds, GoMap.get_set]
    split
    · next hd =>
        rcases hlive.mp hb' with hb' | rfl
        · rw [hsame b' hb' hd]
        · rfl
    · next hd =>
        rcases hlive.mp hb' with hb' | rfl
        · exact h.round hb'
        · exact absurd rfl hd
  · rw [hasTx_of_open (hopen t).1, (hopen t).2, hasTx_of_open h.opened]
    rfl

/-- Forgetting some batches, whatever becomes of the rounds of others. -/
theorem drop (h : idx.Represents live) {idx' : MemoryTxIndex} {stays : Batch → Bool}
    {gone : Hash → Prop} (hopen : idx'.closed = false) (howned : idx'.Owned)
    (hstays : ∀ b ∈ live, stays b = false ↔ gone b.digest)
    (hget : ∀ t d, idx'.txToBatch.get t = some d ↔ idx.txToBatch.get t = some d ∧ ¬ gone d)
    (hround : ∀ d, ¬ gone d → idx'.batchRounds.get d = idx.batchRounds.get d) :
    idx'.Represents (live.filter stays) ∧
      ∀ t, idx.hasTx t = true → (∀ b ∈ live, stays b = false → ¬ b.Holds t) →
        idx'.hasTx t = true := by
  have hkept : ∀ {b}, b ∈ live → ¬ gone b.digest → stays b = true := by
    intro b hb hkeep
    rw [← hstays b hb] at hkeep
    simpa using hkeep
  have hrep : idx'.Represents (live.filter stays) := by
    refine ⟨hopen, howned, ?_, ?_, ?_⟩
    · intro b b' hb hb' hd
      exact h.distinct (List.mem_filter.mp hb).1 (List.mem_filter.mp hb').1 hd
    · intro t d hd
      obtain ⟨hold, hkeep⟩ := (hget t d).mp hd
      obtain ⟨b, hb, rfl, hin⟩ := h.known hold
      exact ⟨b, List.mem_filter.mpr ⟨hb, hkept hb hkeep⟩, rfl, hin⟩
    · intro b hb
      obtain ⟨hb, hstay⟩ := List.mem_filter.mp hb
      rw [hround b.digest fun hgone => ?_]
      · exact h.round hb
      · rw [(hstays b hb).mpr hgone] at hstay
        cases hstay
  refine ⟨hrep, fun t hhas hclear => ?_⟩
  obtain ⟨d, hd⟩ := (h.hasTx t).mp hhas
  obtain ⟨b, hb, rfl, hin⟩ := h.known hd
  exact (hrep.hasTx t).mpr ⟨_, (hget t _).mpr ⟨hd, fun hgone =>
    hclear b hb ((hstays b hb).mpr hgone) hin⟩⟩

theorem removeTxsForBatch (h : idx.Represents live) (d : Hash) :
    (idx.removeTxsForBatch d).2.Represents (live.filter fun b => b.digest ≠ d) ∧
      ∀ t, idx.hasTx t = true → (∀ b ∈ live, b.digest = d → ¬ b.Holds t) →
        (idx.removeTxsForBatch d).2.hasTx t = true := by
  have hremove : idx.removeTxsForBatch d = (.ok (), idx.forget d) := by
    simp [MemoryTxIndex.removeTxsForBatch, h.opened]
  obtain ⟨howned, hget⟩ := h.owned.forget d
  obtain ⟨hclosed, hrounds⟩ := idx.forget_fields d
  have hstays : ∀ b ∈ live, decide (b.digest ≠ d) = false ↔ b.digest = d := by simp
  obtain ⟨hrep, hhas⟩ := h.drop (hclosed.trans h.opened) howned hstays hget
    fun d' _ => by rw [hrounds]
  rw [hremove]
  refine ⟨hrep, fun t ht hclear => hhas t ht fun b hb hgone => hclear b hb ?_⟩
  exact (hstays b hb).mp hgone

omit [Crypto] in
theorem pruneAll (h : idx.Owned) (ds : List Hash) :
    let pruned := ds.foldl (fun (idx : MemoryTxIndex) batchHash =>
      { idx.forget batchHash with batchRounds := idx.batchRounds.del batchHash }) idx
    pruned.Owned ∧ pruned.closed = idx.closed ∧
      (∀ t d, pruned.txToBatch.get t = some d ↔ idx.txToBatch.get t = some d ∧ d ∉ ds) ∧
      ∀ d, d ∉ ds → pruned.batchRounds.get d = idx.batchRounds.get d := by
  induction ds generalizing idx with
  | nil => exact ⟨h, rfl, by simp, fun _ _ => rfl⟩
  | cons d ds ih =>
    obtain ⟨howned, hget⟩ := h.forget d
    have hfirst : MemoryTxIndex.Owned
        { idx.forget d with batchRounds := idx.batchRounds.del d } := howned
    obtain ⟨howned', hclosed, hget', hround⟩ := ih hfirst
    refine ⟨howned', hclosed.trans (idx.forget_fields d).1, fun t d' => ?_, fun d' hd' => ?_⟩
    · rw [List.foldl_cons, hget' t d', List.mem_cons, not_or, ← and_assoc]
      exact and_congr_left fun _ => hget t d'
    · rw [List.mem_cons, not_or] at hd'
      rw [List.foldl_cons, hround d' hd'.2]
      exact (idx.batchRounds.get_del d d').trans (if_neg hd'.1)

theorem pruneOlderThan (h : idx.Represents live) (round : UInt64) :
    (idx.pruneOlderThan round).2.Represents (live.filter fun b => ¬ b.round < round) ∧
      ∀ t, idx.hasTx t = true → (∀ b ∈ live, b.round < round → ¬ b.Holds t) →
        (idx.pruneOlderThan round).2.hasTx t = true := by
  have hstays : ∀ b ∈ live, decide (¬ b.round < round) = false ↔
      b.digest ∈ (idx.batchRounds.filter fun _ r => decide (r < round)).keys := by
    intro b hb
    rw [GoMap.mem_keys, GoMap.has_filter, h.round hb]
    simp
  obtain ⟨howned, hclosed, hget, hround⟩ :=
    pruneAll h.owned (idx.batchRounds.filter fun _ r => decide (r < round)).keys
  obtain ⟨hrep, hhas⟩ := h.drop (hclosed.trans h.opened) howned hstays hget hround
  have hprune : (idx.pruneOlderThan round).2 =
      (idx.batchRounds.filter fun _ r => decide (r < round)).keys.foldl (fun idx batchHash =>
        { idx.forget batchHash with batchRounds := idx.batchRounds.del batchHash }) idx := by
    simp [MemoryTxIndex.pruneOlderThan, h.opened]
  rw [hprune]
  refine ⟨hrep, fun t ht hclear => hhas t ht fun b hb hgone => hclear b hb ?_⟩
  simpa using hgone

end Represents

end MemoryTxIndex

end DagMempool
