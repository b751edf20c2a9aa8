import DagMempool.Lib.Run
import DagMempool.Store.LevelDBTxIndex
import DagMempool.Store.MemoryTxIndex
import DagMempool.Types.Ideal

/-!
# The two directions of a transaction index

Either index can be asked for the batch of a transaction, and finds the transactions of a batch
by a second record when the batch is to be forgotten. In memory the second record is a list, to
which whoever writes the first one appends; the two stay inverse to each other, whatever is
called.

On disk it is a slot of the batch. `AddTx` takes the slot after the highest in use, but `AddBatch`
counts from zero and does not look whether a slot is taken, nor does either stop at the last
slot there is. A transaction whose slot is taken by another one keeps its entry, which no
removal of the batch finds any more. As long as that does not happen every entry has its slot,
and removing a batch leaves nothing that leads to it.
-/

namespace DagMempool

inductive TxIndexWrite where
  | addTx (txHash batchHash : Hash)
  | addBatch (batch : Batch)
  | removeTxsForBatch (batchHash : Hash)
  | pruneOlderThan (round : UInt64)

/-! ## In memory

Every write to one map writes the other; a prune goes by the rounds that are recorded for batches,
which `AddTx` does not record. -/

namespace MemoryTxIndex

variable {idx : MemoryTxIndex}

def write [Crypto] (idx : MemoryTxIndex) : TxIndexWrite → MemoryTxIndex × List Unit
  | .addTx t d => ((idx.addTx t d).2, [])
  | .addBatch b => ((idx.addBatch b).2, [])
  | .removeTxsForBatch d => ((idx.removeTxsForBatch d).2, [])
  | .pruneOlderThan r => ((idx.pruneOlderThan r).2, [])

/-- The two maps are inverse to each other, and no list has a transaction twice. -/
structure TwoWay (idx : MemoryTxIndex) : Prop where
  opened : idx.closed = false
  owned : idx.Owned
  nodup : ∀ {d ts}, idx.batchToTxs.get d = some ts → ts.Nodup

theorem twoWay_new : new.TwoWay where
  opened := rfl
  owned t d := by simp [new]
  nodup h := absurd h GoMap.get_empty_ne

theorem TwoWay.index (h : idx.TwoWay) {t : Hash} (d : Hash)
    (hfree : idx.txToBatch.get t = none) : (idx.index t d).TwoWay := by
  refine ⟨h.opened, h.owned.index d hfree, fun {d' ts} hts => ?_⟩
  rcases GoMap.get_set_eq_some hts with ⟨rfl, rfl⟩ | ⟨-, hold⟩
  · -- What has no batch is in no list.
    have hnew : t ∉ (idx.batchToTxs.get d').getD [] := by
      rw [← h.owned t d', hfree]
      simp
    cases hold : idx.batchToTxs.get d' with
    | none => simp
    | some ts =>
      rw [hold] at hnew
      exact List.nodup_append.mpr ⟨h.nodup hold, List.nodup_singleton t, fun a ha b hb heq =>
        hnew (List.mem_singleton.mp hb ▸ heq ▸ ha)⟩
  · exact h.nodup hold

theorem TwoWay.indexAll [Crypto] (h : idx.TwoWay) (d : Hash) (txs : List Transaction) :
    (txs.foldl (fun (idx : MemoryTxIndex) (tx : Transaction) =>
      if idx.txToBatch.has tx.hash then idx else idx.index tx.hash d) idx).TwoWay := by
  induction txs generalizing idx with
  | nil => exact h
  | cons tx txs ih =>
    rw [List.foldl_cons]
    split
    · exact ih h
    · next hnew => exact ih (h.index d (by simpa [GoMap.has] using hnew))

theorem batchToTxs_forget (idx : MemoryTxIndex) (d d' : Hash) :
    (idx.forget d).batchToTxs.get d' = if d' = d then none else idx.batchToTxs.get d' := by
  unfold forget
  split
  · next hnone =>
      split
      · next heq => rw [heq, hnone]
      · rfl
  · exact idx.batchToTxs.get_del d d'

theorem TwoWay.forget (h : idx.TwoWay) (d : Hash) : (idx.forget d).TwoWay := by
  refine ⟨(idx.forget_fields d).1.trans h.opened, (h.owned.forget d).1, fun {d' ts} hts => ?_⟩
  rw [batchToTxs_forget] at hts
  split at hts
  · cases hts
  · exact h.nodup hts

theorem get_pruneAll (idx : MemoryTxIndex) (ds : List Hash) (d : Hash) :
    let pruned := ds.foldl (fun (idx : MemoryTxIndex) batchHash =>
      { idx.forget batchHash with batchRounds := idx.batchRounds.del batchHash }) idx
    pruned.batchToTxs.get d = (if d ∈ ds then none else idx.batchToTxs.get d) ∧
      pruned.batchRounds.get d = if d ∈ ds then none else idx.batchRounds.get d := by
  induction ds generalizing idx with
  | nil => simp
  | cons first ds ih =>
    obtain ⟨hlists, hrounds⟩ := ih
      { idx.forget first with batchRounds := idx.batchRounds.del first }
    have hfirst := idx.batchToTxs_forget first d
    have hdel := idx.batchRounds.get_del first d
    dsimp only at hlists hrounds ⊢
    rw [List.foldl_cons, hlists, hrounds, hfirst, hdel]
    by_cases hin : d ∈ ds
    · simp [hin]
    · simp [hin]

def RecordedBelow (idx : MemoryTxIndex) (d : Hash) (round : UInt64) : Prop :=
  ∃ r, idx.batchRounds.get d = some r ∧ r < round

theorem mem_batchesToPrune {round : UInt64} {d : Hash} :
    d ∈ (idx.batchRounds.filter fun _ r => decide (r < round)).keys ↔
      idx.RecordedBelow d round := by
  rw [GoMap.mem_keys, GoMap.has_iff]
  simp only [GoMap.get_filter_eq_some, decide_eq_true_eq, RecordedBelow]

/-- What a prune leaves of the three maps. -/
structure Pruned (idx : MemoryTxIndex) (round : UInt64) (idx' : MemoryTxIndex) : Prop where
  mapping : ∀ t d, idx'.txToBatch.get t = some d ↔
    idx.txToBatch.get t = some d ∧ ¬ idx.RecordedBelow d round
  gone : ∀ d, idx.RecordedBelow d round →
    idx'.batchToTxs.get d = none ∧ idx'.batchRounds.get d = none
  kept : ∀ d, ¬ idx.RecordedBelow d round →
    idx'.batchToTxs.get d = idx.batchToTxs.get d ∧ idx'.batchRounds.get d = idx.batchRounds.get d

theorem TwoWay.pruneOlderThan (h : idx.TwoWay) (round : UInt64) :
    (idx.pruneOlderThan round).2.TwoWay ∧ idx.Pruned round (idx.pruneOlderThan round).2 := by
  have hprune : (idx.pruneOlderThan round).2 =
      (idx.batchRounds.filter fun _ r => decide (r < round)).keys.foldl (fun idx batchHash =>
        { idx.forget batchHash with batchRounds := idx.batchRounds.del batchHash }) idx := by
    simp [MemoryTxIndex.pruneOlderThan, h.opened]
  have hmem : ∀ d, d ∈ (idx.batchRounds.filter fun _ r => decide (r < round)).keys ↔
      idx.RecordedBelow d round := fun _ => mem_batchesToPrune
  obtain ⟨howned, hclosed, hget, -⟩ := Represents.pruneAll h.owned
    (idx.batchRounds.filter fun _ r => decide (r < round)).keys
  have hlists := idx.get_pruneAll (idx.batchRounds.filter fun _ r => decide (r < round)).keys
  rw [hprune]
  refine ⟨⟨hclosed.trans h.opened, howned, fun {d ts} hts => ?_⟩, fun t d => ?_, ?_, ?_⟩
  · rw [(hlists d).1] at hts
    split at hts
    · cases hts
    · exact h.nodup hts
  · rw [hget, hmem]
  · intro d hbelow
    obtain ⟨htxs, hround⟩ := hlists d
    rw [htxs, hround, if_pos ((hmem d).mpr hbelow), if_pos ((hmem d).mpr hbelow)]
    exact ⟨rfl, rfl⟩
  · intro d hnot
    obtain ⟨htxs, hround⟩ := hlists d
    rw [htxs, hround, if_neg (mt (hmem d).mp hnot), if_neg (mt (hmem d).mp hnot)]
    exact ⟨rfl, rfl⟩

variable [Crypto]

theorem TwoWay.write (h : idx.TwoWay) (w : TxIndexWrite) : (idx.write w).1.TwoWay := by
  cases w with
  | addTx t d =>
    show (idx.addTx t d).2.TwoWay
    unfold addTx
    rw [h.opened, if_neg (by simp)]
    split
    · split
      · exact h
      · exact h
    · next hfree => exact h.index d hfree
  | addBatch b =>
    show (idx.addBatch b).2.TwoWay
    unfold addBatch
    rw [if_neg (by simp [h.opened])]
    have hset : TwoWay { idx with batchRounds := idx.batchRounds.set b.digest b.round } :=
      ⟨h.opened, h.owned, h.nodup⟩
    exact hset.indexAll b.digest b.transactions
  | removeTxsForBatch d =>
    show (idx.removeTxsForBatch d).2.TwoWay
    unfold removeTxsForBatch
    rw [h.opened, if_neg (by simp)]
    exact h.forget d
  | pruneOlderThan r => exact (h.pruneOlderThan r).1

theorem TwoWay.exec (h : idx.TwoWay) (log : List Unit) (writes : List TxIndexWrite) :
    (Run.exec MemoryTxIndex.write idx log writes).1.TwoWay :=
  Run.exec_invariant (I := fun (idx : MemoryTxIndex) _ => idx.TwoWay)
    (fun _ _ w h => h.write w) h writes

/-- After any calls a transaction leads to a batch exactly if it is in the batch's list, no list
has a transaction twice, and a prune removes what leads to batches with a recorded round below
the one it is given, and nothing else. -/
theorem tx_index_two_way (writes : List TxIndexWrite) :
    let idx := (Run.exec MemoryTxIndex.write new [] writes).1
    (∀ t d, idx.txToBatch.get t = some d ↔ t ∈ (idx.batchToTxs.get d).getD []) ∧
    (∀ d ts, idx.batchToTxs.get d = some ts → ts.Nodup) ∧
    ∀ round, idx.Pruned round (idx.pruneOlderThan round).2 := by
  have hinv := twoWay_new.exec [] writes
  exact ⟨hinv.owned, fun d ts => hinv.nodup, fun round => (hinv.pruneOlderThan round).2⟩

end MemoryTxIndex

/-! ## On disk

The slots of a batch are the keys under its digest. `Backed` says that each entry has one, and
which calls keep it so is a matter of which slots they write to. -/

theorem makeBatchTxKey_eq_iff {d d' : Hash} {slot slot' : UInt32} :
    makeBatchTxKey d slot = makeBatchTxKey d' slot' ↔ d = d' ∧ slot = slot' := by
  constructor
  · intro h
    have hd : d = d' := makeBatchTxPrefix_unique (isPrefix_makeBatchTxKey d slot)
      (h ▸ isPrefix_makeBatchTxKey d' slot')
    subst hd
    exact ⟨rfl, makeBatchTxKey_inj h⟩
  · rintro ⟨rfl, rfl⟩
    rfl

theorem makeBatchTxKey_ne_txKey (d t : Hash) (slot : UInt32) :
    makeBatchTxKey d slot ≠ makeTxKey t := by
  intro h
  exact not_isPrefix_makeTxKey d t (h ▸ isPrefix_makeBatchTxKey d slot)

theorem readUint32_makeBatchTxKey (d : Hash) (slot : UInt32) :
    readUint32 ((makeBatchTxKey d slot).drop (makeBatchTxPrefix d).length) = slot := by
  have hdrop : (makeBatchTxKey d slot).drop (makeBatchTxPrefix d).length =
      beBytes 4 slot.toNat := List.drop_left' rfl
  have htake : (beBytes 4 slot.toNat).take 4 = beBytes 4 slot.toNat :=
    List.take_of_length_le (by simp)
  rw [hdrop, readUint32, htake, beNat_beBytes slot.toNat_lt]
  exact UInt32.ofNat_toNat

namespace LevelDBTxIndex

variable {idx : LevelDBTxIndex}

def write [Crypto] (idx : LevelDBTxIndex) : TxIndexWrite → LevelDBTxIndex × List Unit
  | .addTx t d => ((idx.addTx t d).2, [])
  | .addBatch b => ((idx.addBatch b).2, [])
  | .removeTxsForBatch d => ((idx.removeTxsForBatch d).2, [])
  | .pruneOlderThan r => ((idx.pruneOlderThan r).2, [])

/-- Every entry of a transaction has a slot of the batch it leads to. -/
structure Backed (idx : LevelDBTxIndex) : Prop where
  opened : idx.closed = false
  working : idx.db.Working
  tx : ∀ {t v}, idx.db.data.get (makeTxKey t) = some v →
    ∃ d slot, v = d.bytes ∧ idx.db.data.get (makeBatchTxKey d slot) = some t.bytes
  slots : ∀ {d k v}, idx.db.data.get k = some v → makeBatchTxPrefix d <+: k →
    ∃ slot, ∃ t : Hash, k = makeBatchTxKey d slot ∧ v = t.bytes

/-- The call takes no slot away from a transaction that leads to the batch: the last slot is
free where another one is asked for; and a batch that is indexed as a whole has slots for its
transactions, and what leads to it already is one of them or has a slot behind them. -/
def SparesSlots [Crypto] (idx : LevelDBTxIndex) : TxIndexWrite → Prop
  | .addTx t d => idx.db.data.get (makeTxKey t) = none →
      idx.db.data.get (makeBatchTxKey d 0xFFFFFFFF) = none
  | .addBatch b => idx.db.data.get (makeBatchRoundIdxKey b.digest) = none →
      b.transactions.length ≤ 2 ^ 32 ∧
      ∀ t, idx.db.data.get (makeTxKey t) = some b.digest.bytes → b.Holds t ∨
        ∃ slot : UInt32, b.transactions.length ≤ slot.toNat ∧
          idx.db.data.get (makeBatchTxKey b.digest slot) = some t.bytes
  | _ => True

theorem backed_new : new.Backed where
  opened := rfl
  working := LevelDB.DB.working_openFile
  tx h := absurd h GoMap.get_empty_ne
  slots h := absurd h GoMap.get_empty_ne

def higher (start : List UInt8) (max : Option UInt32) (entry : List UInt8 × List UInt8) :
    Option UInt32 :=
  if entry.1.length < start.length + 4 then max
  else
    let slot := readUint32 (entry.1.drop start.length)
    match max with
    | none => some slot
    | some m => if m < slot then some slot else some m

theorem higher_slot (d : Hash) (max : Option UInt32) (slot : UInt32) (v : List UInt8) :
    ∃ m, higher (makeBatchTxPrefix d) max (makeBatchTxKey d slot, v) = some m ∧ slot ≤ m ∧
      (∀ m', max = some m' → m' ≤ m) ∧ (m = slot ∨ max = some m) := by
  have hlen : ¬ (makeBatchTxKey d slot).length < (makeBatchTxPrefix d).length + 4 := by
    simp [makeBatchTxKey]
  unfold higher
  rw [if_neg hlen]
  rw [readUint32_makeBatchTxKey]
  cases max with
  | none => exact ⟨slot, rfl, UInt32.le_refl _, by simp, .inl rfl⟩
  | some m =>
    by_cases hlt : m < slot
    · refine ⟨slot, if_pos hlt, UInt32.le_refl _, fun m' hm' => ?_, .inl rfl⟩
      rw [← Option.some.inj hm']
      exact UInt32.le_of_lt hlt
    · refine ⟨m, if_neg hlt, UInt32.not_lt.mp hlt, fun m' hm' => ?_, .inr rfl⟩
      rw [← Option.some.inj hm']
      exact UInt32.le_refl _

variable {t d : Hash} {slot : UInt32}

theorem foldl_higher {d : Hash} {entries : List (List UInt8 × List UInt8)}
    (hkeys : ∀ e ∈ entries, ∃ slot, e.1 = makeBatchTxKey d slot) (max : Option UInt32) :
    let found := entries.foldl (higher (makeBatchTxPrefix d)) max
    (∀ m, max = some m → ∃ m', found = some m' ∧ m ≤ m') ∧
    (∀ e ∈ entries, ∀ slot, e.1 = makeBatchTxKey d slot → ∃ m, found = some m ∧ slot ≤ m) ∧
    ∀ m, found = some m → max = some m ∨ ∃ e ∈ entries, e.1 = makeBatchTxKey d m := by
  induction entries generalizing max with
  | nil => exact ⟨fun m hm => ⟨m, hm, UInt32.le_refl _⟩, by simp, fun m hm => .inl hm⟩
  | cons entry entries ih =>
    obtain ⟨slot, hslot⟩ := hkeys entry List.mem_cons_self
    obtain ⟨m, hm, hle, hold, hfrom⟩ := higher_slot d max slot entry.2
    have hm : higher (makeBatchTxPrefix d) max entry = some m := by
      rw [← hm, ← hslot]
    obtain ⟨hstart, hall, hsome⟩ := ih (fun e he => hkeys e (List.mem_cons_of_mem _ he))
      (higher (makeBatchTxPrefix d) max entry)
    obtain ⟨m', hm', hmm'⟩ := hstart m hm
    refine ⟨fun m₀ hm₀ => ⟨m', hm', UInt32.le_trans (hold m₀ hm₀) hmm'⟩, ?_, ?_⟩
    · intro e he slot' hslot'
      rcases List.mem_cons.mp he with rfl | he
      · obtain ⟨-, rfl⟩ := makeBatchTxKey_eq_iff.mp (hslot.symm.trans hslot')
        exact ⟨m', hm', UInt32.le_trans hle hmm'⟩
      · exact hall e he slot' hslot'
    · intro m₁ hm₁
      rcases hsome m₁ hm₁ with hfirst | ⟨e, he, hkey⟩
      · obtain rfl := Option.some.inj (hm.symm.trans hfirst)
        rcases hfrom with rfl | hmax
        · exact .inr ⟨entry, List.mem_cons_self, hslot⟩
        · exact .inl hmax
      · exact .inr ⟨e, List.mem_cons_of_mem _ he, hkey⟩

theorem not_succ_slot_le (h : slot ≠ 0xFFFFFFFF) : ¬ slot + 1 ≤ slot := by
  have hnat : slot.toNat ≠ 0xFFFFFFFF := fun heq => h (UInt32.toNat_inj.mp heq)
  have hlt : slot.toNat < 2 ^ 32 := slot.toNat_lt
  have hone : (1 : UInt32).toNat = 1 := rfl
  rw [UInt32.le_iff_toNat_le, UInt32.toNat_add, hone, Nat.mod_eq_of_lt (by omega)]
  omega

theorem Backed.nextBatchTxSlot (h : idx.Backed) {d : Hash}
    (hlast : idx.db.data.get (makeBatchTxKey d 0xFFFFFFFF) = none) :
    ∃ slot, idx.nextBatchTxSlot d = .ok slot ∧
      idx.db.data.get (makeBatchTxKey d slot) = none := by
  obtain ⟨found, hfound, -, hmem⟩ :=
    LevelDB.DB.iterate_of_open h.working.closed (makeBatchTxPrefix d)
  have hkeys : ∀ e ∈ found, ∃ slot, e.1 = makeBatchTxKey d slot := by
    intro e he
    obtain ⟨hget, hk⟩ := (hmem e.1 e.2).mp he
    obtain ⟨slot, -, hkey, -⟩ := h.slots hget hk
    exact ⟨slot, hkey⟩
  obtain ⟨-, hall, hsome⟩ := foldl_higher hkeys none
  have hnext : idx.nextBatchTxSlot d =
      match found.foldl (higher (makeBatchTxPrefix d)) none with
      | none => .ok 0
      | some max => .ok (max + 1) := by
    unfold LevelDBTxIndex.nextBatchTxSlot
    dsimp only
    rw [hfound]
    rfl
  have hused : ∀ {slot v}, idx.db.data.get (makeBatchTxKey d slot) = some v →
      ∃ m, found.foldl (higher (makeBatchTxPrefix d)) none = some m ∧ slot ≤ m := by
    intro slot v hget
    exact hall (_, v) ((hmem _ v).mpr ⟨hget, isPrefix_makeBatchTxKey d slot⟩) slot rfl
  cases hmax : found.foldl (higher (makeBatchTxPrefix d)) none with
  | none =>
    refine ⟨0, by rw [hnext, hmax], ?_⟩
    by_contra hne
    obtain ⟨v, hv⟩ := Option.ne_none_iff_exists'.mp hne
    obtain ⟨m, hm, -⟩ := hused hv
    rw [hmax] at hm
    cases hm
  | some max =>
    refine ⟨max + 1, by rw [hnext, hmax], ?_⟩
    by_contra hne
    obtain ⟨v, hv⟩ := Option.ne_none_iff_exists'.mp hne
    obtain ⟨m, hm, hle⟩ := hused hv
    obtain rfl := Option.some.inj (hmax.symm.trans hm)
    -- The highest slot in use is not the last one, so that the next is above it.
    have htop : max ≠ 0xFFFFFFFF := by
      rintro rfl
      rcases hsome _ hmax with habs | ⟨e, he, hkey⟩
      · cases habs
      · have hget := ((hmem e.1 e.2).mp he).1
        rw [hkey, hlast] at hget
        cases hget
    exact not_succ_slot_le htop hle

theorem Backed.putTx (h : idx.Backed) (hfree : idx.db.data.get (makeBatchTxKey d slot) = none) :
    Backed { idx with db.data := LevelDB.applyAll idx.db.data ([.put (makeTxKey t) d.bytes,
      .put (makeBatchTxKey d slot) t.bytes] ++ []) } := by
  have hdata : ∀ k, (LevelDB.applyAll idx.db.data ([.put (makeTxKey t) d.bytes,
      .put (makeBatchTxKey d slot) t.bytes] ++ [])).get k =
      if k = makeTxKey t then some d.bytes
      else if k = makeBatchTxKey d slot then some t.bytes else idx.db.data.get k :=
    fun _ => LevelDB.get_applyAll_puts (makeBatchTxKey_ne_txKey d t slot).symm (by simp)
  refine ⟨h.opened, ⟨h.working.full, h.working.closed⟩, fun {t' v} hv => ?_,
    fun {d' k v} hv hk => ?_⟩
  · have hput := (hdata (makeTxKey t')).symm.trans hv
    split at hput
    · next hkey =>
        obtain rfl := makeTxKey_inj hkey
        refine ⟨d, slot, (Option.some.inj hput).symm, (hdata _).trans ?_⟩
        rw [if_neg (makeBatchTxKey_ne_txKey d t' slot), if_pos rfl]
    · obtain ⟨d', slot', rfl, hslot'⟩ := h.tx hput
      refine ⟨d', slot', rfl, (hdata _).trans ?_⟩
      rw [if_neg (makeBatchTxKey_ne_txKey d' t slot'), if_neg, hslot']
      intro hkey
      rw [hkey, hfree] at hslot'
      cases hslot'
  · have hput := (hdata k).symm.trans hv
    split at hput
    · next hkey =>
        rw [hkey] at hk
        exact absurd hk (not_isPrefix_makeTxKey d' t)
    · split at hput
      · next hkey =>
          rw [hkey] at hk
          obtain rfl := makeBatchTxPrefix_unique hk (isPrefix_makeBatchTxKey d slot)
          exact ⟨slot, t, hkey, (Option.some.inj hput).symm⟩
      · exact h.slots hput hk

theorem Backed.addTx (h : idx.Backed)
    (hlast : idx.db.data.get (makeTxKey t) = none →
      idx.db.data.get (makeBatchTxKey d 0xFFFFFFFF) = none) : (idx.addTx t d).2.Backed := by
  cases hget : idx.db.data.get (makeTxKey t) with
  | some v =>
    obtain ⟨d', slot, rfl, -⟩ := h.tx hget
    have hsame : (idx.addTx t d).2 = idx := by
      simp only [LevelDBTxIndex.addTx, h.opened, LevelDB.DB.get_of_open h.working.closed, hget,
        Hash.length_bytes]
      simp only [Bool.false_eq_true, if_false, if_true]
      split <;> rfl
    rw [hsame]
    exact h
  | none =>
    obtain ⟨slot, hslot, hfree⟩ := h.nextBatchTxSlot (hlast hget)
    have hadd : (idx.addTx t d).2 = { idx with
        db.data := LevelDB.applyAll idx.db.data ([.put (makeTxKey t) d.bytes,
          .put (makeBatchTxKey d slot) t.bytes] ++ []) } := by
      simp [LevelDBTxIndex.addTx, h.opened, LevelDB.DB.get_of_open h.working.closed, hget, hslot,
        h.working.write]
    rw [hadd]
    exact h.putTx hfree

theorem get_addOps_behind [Crypto] {m : GoMap (List UInt8) (List UInt8)} {b : Batch}
    (hbehind : b.transactions.length ≤ slot.toNat) :
    (LevelDB.applyAll m (addOps b)).get (makeBatchTxKey b.digest slot) =
      m.get (makeBatchTxKey b.digest slot) := by
  refine LevelDB.get_applyAll_of_ne fun op hop hkey => ?_
  obtain ⟨-, tx, i, hi, rfl⟩ := value_of_slot_key hop
    (hkey ▸ isPrefix_makeBatchTxKey b.digest slot)
  have hlt := (List.getElem?_eq_some_iff.mp (List.mem_zipIdx_iff_getElem?.mp hi)).1
  obtain rfl := makeBatchTxKey_inj hkey
  have hle : (UInt32.ofNat i).toNat ≤ i := by
    rw [UInt32.toNat_ofNat']
    exact Nat.mod_le _ _
  omega

theorem Backed.addBatch [Crypto] (h : idx.Backed) {b : Batch}
    (hspares : idx.SparesSlots (.addBatch b)) : (idx.addBatch b).2.Backed := by
  cases hround : idx.db.data.get (makeBatchRoundIdxKey b.digest) with
  | some v =>
    have hsame : (idx.addBatch b).2 = idx := by
      simp [LevelDBTxIndex.addBatch, h.opened, LevelDB.DB.get_of_open h.working.closed, hround]
    rw [hsame]
    exact h
  | none =>
    obtain ⟨hlen, hbehind⟩ := hspares hround
    have hadd : (idx.addBatch b).2 =
        { idx with db.data := LevelDB.applyAll idx.db.data (addOps b) } := by
      simp [LevelDBTxIndex.addBatch, h.opened, LevelDB.DB.get_of_open h.working.closed, hround,
        h.working.write]
    rw [hadd]
    refine ⟨h.opened, ⟨h.working.full, h.working.closed⟩, fun {t v} hv => ?_,
      fun {d k v} hv hk => ?_⟩
    · have hput : (LevelDB.applyAll idx.db.data (addOps b)).get (makeTxKey t) = some v := hv
      rw [get_addOps_tx] at hput
      split at hput
      · next ht =>
          obtain ⟨tx, i, hi, rfl⟩ := holds_iff_zipIdx.mp ht
          exact ⟨b.digest, _, (Option.some.inj hput).symm, get_addOps_slot hlen hi⟩
      · next ht =>
          obtain ⟨d, slot, rfl, hslot⟩ := h.tx hput
          by_cases hd : d = b.digest
          · subst hd
            obtain ⟨slot', hle, hslot'⟩ := (hbehind t hput).resolve_left ht
            exact ⟨b.digest, slot', rfl, (get_addOps_behind hle).trans hslot'⟩
          · exact ⟨d, slot, rfl,
              (get_addOps_other (isPrefix_makeBatchTxKey d slot) hd).trans hslot⟩
    · rcases LevelDB.get_applyAll_eq_some hv with hold | ⟨op, hop, rfl, hvalue⟩
      · exact h.slots hold hk
      · obtain ⟨rfl, tx, i, hi, rfl⟩ := value_of_slot_key hop hk
        exact ⟨UInt32.ofNat i, tx.hash, rfl, (Option.some.inj hvalue).symm⟩

/-- Removing a batch removes whatever leads to it, and leaves the other batches their slots. -/
theorem Backed.removeBatchLocked (h : idx.Backed) (d : Hash) :
    (idx.removeBatchLocked d).1 = .ok () ∧ (idx.removeBatchLocked d).2.Backed ∧
      ∀ t, (idx.removeBatchLocked d).2.db.data.get (makeTxKey t) ≠ some d.bytes := by
  obtain ⟨data, hremove, hget⟩ := removeBatchLocked_of_slots h.working (d := d)
    fun {k v} hv hk => by
      obtain ⟨-, t, -, ht⟩ := h.slots hv hk
      exact ⟨t, ht⟩
  -- What is left of the transactions leads elsewhere.
  have hother : ∀ {t v}, data.get (makeTxKey t) = some v →
      ∃ d' slot, v = d'.bytes ∧ d' ≠ d ∧
        idx.db.data.get (makeBatchTxKey d' slot) = some t.bytes := by
    intro t v hv
    obtain ⟨hold, -, -, hslots⟩ := (hget _ _).mp hv
    obtain ⟨d', slot, rfl, hslot⟩ := h.tx hold
    refine ⟨d', slot, rfl, ?_, hslot⟩
    rintro rfl
    exact hslots t rfl _ (isPrefix_makeBatchTxKey d' slot) hslot
  rw [hremove]
  refine ⟨rfl, ⟨h.opened, ⟨h.working.full, h.working.closed⟩, fun {t v} hv => ?_,
    fun {d' k v} hv hk => h.slots ((hget k v).mp hv).1 hk⟩, fun t hv => ?_⟩
  · obtain ⟨d', slot, rfl, hne, hslot⟩ := hother hv
    refine ⟨d', slot, rfl, (hget _ _).mpr ⟨hslot, ?_, ?_, ?_⟩⟩
    · intro hkey
      exact not_isPrefix_makeBatchRoundIdxKey d' d (hkey ▸ isPrefix_makeBatchTxKey d' slot)
    · intro hk
      exact hne (makeBatchTxPrefix_unique (isPrefix_makeBatchTxKey d' slot) hk)
    · intro t' hkey
      exact absurd hkey (makeBatchTxKey_ne_txKey d' t' slot)
  · obtain ⟨d', -, hbytes, hne, -⟩ := hother hv
    exact hne (Hash.bytes_inj hbytes.symm)

theorem Backed.removeAll (h : idx.Backed) (ds : List Hash) : (idx.removeAll ds).2.Backed := by
  induction ds generalizing idx with
  | nil => exact h
  | cons d ds ih =>
    obtain ⟨hok, hbacked, -⟩ := h.removeBatchLocked d
    have hloop : idx.removeAll (d :: ds) = (idx.removeBatchLocked d).2.removeAll ds := by
      simp [LevelDBTxIndex.removeAll, hok]
    rw [hloop]
    exact ih hbacked

theorem Backed.pruneOlderThan (h : idx.Backed) (round : UInt64) :
    (idx.pruneOlderThan round).2.Backed := by
  obtain ⟨found, hfound, -, -⟩ :=
    LevelDB.DB.iterate_of_open h.working.closed batchRoundIdxPrefix
  have hremoved := h.removeAll (found.filterMap (olderThan round))
  unfold LevelDBTxIndex.pruneOlderThan
  rw [h.opened, if_neg (by simp), hfound]
  dsimp only
  split
  · exact hremoved
  · exact hremoved

theorem Backed.getBatchForTx (h : idx.Backed) (hget : idx.getBatchForTx t = .ok d) :
    idx.db.data.get (makeTxKey t) = some d.bytes := by
  unfold LevelDBTxIndex.getBatchForTx at hget
  rw [h.opened, if_neg (by simp), LevelDB.DB.get_of_open h.working.closed] at hget
  cases hv : idx.db.data.get (makeTxKey t) with
  | none =>
    rw [hv] at hget
    cases hget
  | some v =>
    obtain ⟨d', -, rfl, -⟩ := h.tx hv
    rw [hv] at hget
    simp only [Hash.length_bytes, ne_eq, not_true_eq_false, if_false, Hash.copyFrom_bytes]
      at hget
    rw [Except.ok.inj hget]

variable [Crypto]

theorem Backed.write (h : idx.Backed) {w : TxIndexWrite} (hspares : idx.SparesSlots w) :
    (idx.write w).1.Backed := by
  cases w with
  | addTx t d => exact h.addTx hspares
  | addBatch b => exact h.addBatch hspares
  | removeTxsForBatch d =>
    show (idx.removeTxsForBatch d).2.Backed
    unfold removeTxsForBatch
    rw [h.opened, if_neg (by simp)]
    exact (h.removeBatchLocked d).2.1
  | pruneOlderThan r => exact h.pruneOlderThan r

/-- As long as no call takes a slot away from a transaction that leads to its batch, every entry
of a transaction has a slot of its batch, and once a batch is removed nothing leads to it. -/
theorem tx_index_leaves_nothing {log : List Unit}
    (hreach : Run.Reach (fun idx => idx = LevelDBTxIndex.new) LevelDBTxIndex.write
      (fun idx _ w => idx.SparesSlots w) idx log) :
    (∀ t v, idx.db.data.get (makeTxKey t) = some v →
      ∃ d slot, v = d.bytes ∧ idx.db.data.get (makeBatchTxKey d slot) = some t.bytes) ∧
    ∀ d, (idx.removeTxsForBatch d).1 = .ok () ∧
      ∀ t, (idx.removeTxsForBatch d).2.getBatchForTx t ≠ .ok d := by
  have hbacked : idx.Backed := by
    refine Run.Reach.invariant (I := fun idx _ => idx.Backed) ?_ ?_ hreach
    · rintro idx rfl
      exact backed_new
    · exact fun idx log w h hspares => h.write hspares
  refine ⟨fun t v => hbacked.tx, fun d => ?_⟩
  obtain ⟨hok, hafter, hnone⟩ := hbacked.removeBatchLocked d
  unfold removeTxsForBatch
  rw [hbacked.opened, if_neg (by simp)]
  exact ⟨hok, fun t hget => hnone t (hafter.getBatchForTx hget)⟩

end LevelDBTxIndex

section

attribute [local instance] idealCrypto

/-- A batch of one transaction. -/
def slottedBatch : Batch := .new 0 1 0 [[4]] 5

/-- A transaction is indexed for the batch before the batch itself is. -/
def singleFirst : List TxIndexWrite := [.addTx 1 slottedBatch.digest, .addBatch slottedBatch]

/-- The batch takes the transaction's slot, and removing the batch does not find it. -/
theorem entry_without_slot :
    (let idx := (Run.exec LevelDBTxIndex.write .new [] singleFirst).1
     idx.getBatchForTx 1 = .ok slottedBatch.digest ∧
       idx.db.data.get (makeBatchTxKey slottedBatch.digest 0) =
         some (Transaction.hash [4]).bytes ∧
       (idx.removeTxsForBatch slottedBatch.digest).1 = .ok () ∧
       (idx.removeTxsForBatch slottedBatch.digest).2.getBatchForTx 1 =
         .ok slottedBatch.digest) := by
  decide +kernel

/-- The same calls the other way round. -/
def batchFirst : List TxIndexWrite := [.addBatch slottedBatch, .addTx 1 slottedBatch.digest]

theorem tx_index_leaves_nothing_batchFirst :
    let idx := (Run.exec LevelDBTxIndex.write .new [] batchFirst).1
    idx.getBatchForTx 1 = .ok slottedBatch.digest ∧
      (idx.removeTxsForBatch slottedBatch.digest).2.getBatchForTx 1 ≠
        .ok slottedBatch.digest := by
  have hspares : Run.AllOk LevelDBTxIndex.write (fun idx _ w => idx.SparesSlots w)
      LevelDBTxIndex.new [] batchFirst := by
    refine ⟨fun _ => ⟨by decide, fun t ht => ?_⟩, fun _ => by decide +kernel, trivial⟩
    exact absurd ht GoMap.get_empty_ne
  have hreach : Run.Reach (fun idx => idx = LevelDBTxIndex.new) LevelDBTxIndex.write
      (fun idx _ w => idx.SparesSlots w) (Run.exec LevelDBTxIndex.write .new [] batchFirst).1
      (Run.exec LevelDBTxIndex.write .new [] batchFirst).2 := by
    refine Run.Reach.of_exec ?_ hspares
    rfl
  exact ⟨by decide +kernel,
    ((LevelDBTxIndex.tx_index_leaves_nothing hreach).2 slottedBatch.digest).2 1⟩

end

end DagMempool
