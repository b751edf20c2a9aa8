import DagMempool.Store.LevelDB

/-!
# The transaction index on disk

Three kinds of entries: a transaction and the batch it is in, a batch with a slot and
the transaction in the slot, and a batch and its round. A transaction has one entry
whatever the number of batches it is in, and the batch indexed last has it. To remove
a batch is to delete the entries of all transactions in its slots, whichever batch they
lead to.
-/

namespace DagMempool

open LevelDB (DB Op applyAll)

def txToBatchPrefix : List UInt8 := ascii ['T', ':']

def batchToTxsPrefix : List UInt8 := ascii ['T', 'B', ':']

def batchRoundIdxPrefix : List UInt8 := ascii ['T', 'R', ':']

def makeTxKey (txHash : Hash) : List UInt8 := txToBatchPrefix ++ txHash.bytes

def makeBatchTxPrefix (batchHash : Hash) : List UInt8 := batchToTxsPrefix ++ batchHash.bytes

def makeBatchTxKey (batchHash : Hash) (slot : UInt32) : List UInt8 :=
  makeBatchTxPrefix batchHash ++ beBytes 4 slot.toNat

def makeBatchRoundIdxKey (batchHash : Hash) : List UInt8 :=
  batchRoundIdxPrefix ++ batchHash.bytes

/-- `binary.BigEndian.Uint32` of the first four bytes. -/
def readUint32 (b : List UInt8) : UInt32 := UInt32.ofNat (beNat (b.take 4))

structure LevelDBTxIndex where
  db : DB
  closed : Bool

namespace LevelDBTxIndex

/-- `NewLevelDBTxIndex`, of a directory with nothing in it. -/
def new : LevelDBTxIndex := { db := .openFile, closed := false }

def close (idx : LevelDBTxIndex) : Except GoError Unit × LevelDBTxIndex :=
  if idx.closed then (.ok (), idx) else (.ok (), { db := idx.db.close, closed := true })

instance : Closer LevelDBTxIndex where
  close := close

/-- `NewLevelDBTxIndex`, where there was one before. -/
def reopen (idx : LevelDBTxIndex) : LevelDBTxIndex := { db := idx.db.reopen, closed := false }

instance : Reopens LevelDBTxIndex where
  reopen := reopen

/-- The slot after the highest one in use, which may be slot `0` again. -/
def nextBatchTxSlot (idx : LevelDBTxIndex) (batchHash : Hash) : Except GoError UInt32 :=
  let start := makeBatchTxPrefix batchHash
  match idx.db.iterate start with
  | .error err => .error (.wrap "iteration error" err.text)
  | .ok entries =>
    let max := entries.foldl (fun max entry =>
      if entry.1.length < start.length + 4 then max
      else
        let slot := readUint32 (entry.1.drop start.length)
        match max with
        | none => some slot
        | some m => if m < slot then some slot else some m) (none : Option UInt32)
    match max with
    | none => .ok 0
    | some max => .ok (max + 1)

def addTx (idx : LevelDBTxIndex) (txHash batchHash : Hash) :
    Except GoError Unit × LevelDBTxIndex :=
  -- A mapping of the wrong length is treated as if there were none.
  let write : Except GoError Unit × LevelDBTxIndex :=
    match idx.nextBatchTxSlot batchHash with
    | .error err => (.error err, idx)
    | .ok slot =>
      let written := idx.db.write [.put (makeTxKey txHash) batchHash.bytes,
        .put (makeBatchTxKey batchHash slot) txHash.bytes]
      match written.1 with
      | .error err =>
        (.error (.wrap "failed to write tx index entry" err.text),
          { idx with db := written.2 })
      | .ok () => (.ok (), { idx with db := written.2 })
  if idx.closed then (.error .notRunning, idx)
  else match idx.db.get (makeTxKey txHash) with
    | .ok existing =>
      if existing.length = 32 then
        if Hash.copyFrom existing = batchHash then (.ok (), idx)
        else (.error .txAlreadyExists, idx)
      else write
    | .error .notFound => write
    | .error err => (.error (.wrap "failed to check tx existence" err.text), idx)

/-- The entries of one transaction of a batch: of the transaction, and of its slot. -/
def txOps [Crypto] (batchHash : Hash) (entry : Transaction × Nat) : List Op :=
  [.put (makeTxKey entry.1.hash) batchHash.bytes,
    .put (makeBatchTxKey batchHash (UInt32.ofNat entry.2)) entry.1.hash.bytes]

/-- The write batch of `AddBatch`. -/
def addOps [Crypto] (batch : Batch) : List Op :=
  .put (makeBatchRoundIdxKey batch.digest) (beBytes 8 batch.round.toNat) ::
    batch.transactions.zipIdx.flatMap (txOps batch.digest)

def addBatch [Crypto] (idx : LevelDBTxIndex) (batch : Batch) :
    Except GoError Unit × LevelDBTxIndex :=
  if idx.closed then (.error .notRunning, idx)
  else match idx.db.get (makeBatchRoundIdxKey batch.digest) with
    | .ok _ => (.ok (), idx)
    | .error .notFound =>
      let written := idx.db.write (addOps batch)
      match written.1 with
      | .error err =>
        (.error (.wrap "failed to index batch" err.text), { idx with db := written.2 })
      | .ok () => (.ok (), { idx with db := written.2 })
    | .error err => (.error (.wrap "failed to check batch index" err.text), idx)

def getBatchForTx (idx : LevelDBTxIndex) (txHash : Hash) : Except GoError Hash :=
  if idx.closed then .error .notRunning
  else match idx.db.get (makeTxKey txHash) with
    | .error .notFound => .error .batchNotFound
    | .error err => .error (.wrap "failed to read tx index" err.text)
    | .ok data => if data.length ≠ 32 then .error .batchNotFound else .ok (Hash.copyFrom data)

def hasTx (idx : LevelDBTxIndex) (txHash : Hash) : Bool :=
  if idx.closed then false
  else match idx.db.has (makeTxKey txHash) with
    | .error _ => false
    | .ok has => has

/-- What to delete for the slot of a batch: the entry of its transaction, and its own. -/
def slotOps (entry : List UInt8 × List UInt8) : List Op :=
  (if entry.2.length = 32 then [.delete (makeTxKey (Hash.copyFrom entry.2))] else []) ++
    [.delete entry.1]

def removeBatchLocked (idx : LevelDBTxIndex) (batchHash : Hash) :
    Except GoError Unit × LevelDBTxIndex :=
  match idx.db.iterate (makeBatchTxPrefix batchHash) with
  | .error err => (.error (.wrap "iteration error" err.text), idx)
  | .ok slots =>
    let written := idx.db.write
      (slots.flatMap slotOps ++ [.delete (makeBatchRoundIdxKey batchHash)])
    match written.1 with
    | .error err =>
      (.error (.wrap "failed to remove batch tx mappings" err.text),
        { idx with db := written.2 })
    | .ok () => (.ok (), { idx with db := written.2 })

def removeTxsForBatch (idx : LevelDBTxIndex) (batchHash : Hash) :
    Except GoError Unit × LevelDBTxIndex :=
  if idx.closed then (.error .notRunning, idx) else idx.removeBatchLocked batchHash

/-- The loop of `PruneOlderThan`, which stops at the first batch it cannot remove. -/
def removeAll (idx : LevelDBTxIndex) : List Hash → Except GoError Unit × LevelDBTxIndex
  | [] => (.ok (), idx)
  | batchHash :: rest =>
    let removed := idx.removeBatchLocked batchHash
    match removed.1 with
    | .error err => (.error err, removed.2)
    | .ok () => removed.2.removeAll rest

/-- The batch of a round entry, if the entry is well formed and its round is lower. -/
def olderThan (round : UInt64) (entry : List UInt8 × List UInt8) : Option Hash :=
  if entry.1.length < batchRoundIdxPrefix.length + 32 ∨ entry.2.length < 8 then none
  else if round ≤ readUint64 entry.2 then none
  else some (Hash.copyFrom (entry.1.drop batchRoundIdxPrefix.length))

def pruneOlderThan (idx : LevelDBTxIndex) (round : UInt64) :
    Except GoError Nat × LevelDBTxIndex :=
  if idx.closed then (.error .notRunning, idx)
  else match idx.db.iterate batchRoundIdxPrefix with
    | .error err => (.error (.wrap "iteration error" err.text), idx)
    | .ok rounds =>
      let toPrune := rounds.filterMap (olderThan round)
      let removed := idx.removeAll toPrune
      match removed.1 with
      | .error err => (.error err, removed.2)
      | .ok () => (.ok toPrune.length, removed.2)

instance [Crypto] : TxIndex LevelDBTxIndex where
  addTx := addTx
  addBatch := addBatch
  getBatchForTx := getBatchForTx
  hasTx := hasTx
  removeTxsForBatch := removeTxsForBatch
  pruneOlderThan idx round _ := pruneOlderThan idx round

end LevelDBTxIndex

/-! ## Keys -/

theorem makeTxKey_inj {t t' : Hash} (h : makeTxKey t = makeTxKey t') : t = t' :=
  Hash.bytes_inj (List.append_cancel_left h)

theorem makeBatchRoundIdxKey_inj {d d' : Hash}
    (h : makeBatchRoundIdxKey d = makeBatchRoundIdxKey d') : d = d' :=
  Hash.bytes_inj (List.append_cancel_left h)

variable {op : Op} {t : Hash} {k : List UInt8} {d : Hash}

theorem makeBatchTxKey_inj {slot slot' : UInt32}
    (h : makeBatchTxKey d slot = makeBatchTxKey d slot') : slot = slot' :=
  UInt32.toNat_inj.mp
    (beBytes_inj slot.toNat_lt slot'.toNat_lt (List.append_cancel_left h))

theorem isPrefix_makeBatchTxKey (d : Hash) (slot : UInt32) :
    makeBatchTxPrefix d <+: makeBatchTxKey d slot :=
  List.prefix_append _ _

/-- A slot is one of a single batch. -/
theorem makeBatchTxPrefix_unique {d d' : Hash} (h : makeBatchTxPrefix d <+: k)
    (h' : makeBatchTxPrefix d' <+: k) : d = d' := by
  have hlen : (makeBatchTxPrefix d).length = (makeBatchTxPrefix d').length := by
    simp [makeBatchTxPrefix]
  have heq : makeBatchTxPrefix d = makeBatchTxPrefix d' := by
    rw [List.prefix_iff_eq_take.mp h, List.prefix_iff_eq_take.mp h', hlen]
  exact Hash.bytes_inj (List.append_cancel_left heq)

/-- The three kinds of entries do not mix. -/
theorem not_isPrefix_makeTxKey (d t : Hash) : ¬ makeBatchTxPrefix d <+: makeTxKey t := by
  intro h
  simp [makeBatchTxPrefix, batchToTxsPrefix, makeTxKey, txToBatchPrefix, ascii] at h

theorem not_isPrefix_makeBatchRoundIdxKey (d d' : Hash) :
    ¬ makeBatchTxPrefix d <+: makeBatchRoundIdxKey d' := by
  intro h
  simp [makeBatchTxPrefix, batchToTxsPrefix, makeBatchRoundIdxKey, batchRoundIdxPrefix,
    ascii] at h

theorem makeTxKey_ne_roundKey (t d : Hash) : makeTxKey t ≠ makeBatchRoundIdxKey d := by
  intro h
  simp [makeTxKey, txToBatchPrefix, makeBatchRoundIdxKey, batchRoundIdxPrefix, ascii] at h

theorem not_roundPrefix_makeTxKey (t : Hash) : ¬ batchRoundIdxPrefix <+: makeTxKey t := by
  intro h
  simp [batchRoundIdxPrefix, makeTxKey, txToBatchPrefix, ascii] at h

theorem not_roundPrefix_makeBatchTxKey (d : Hash) (slot : UInt32) :
    ¬ batchRoundIdxPrefix <+: makeBatchTxKey d slot := by
  intro h
  simp [batchRoundIdxPrefix, makeBatchTxKey, makeBatchTxPrefix, batchToTxsPrefix, ascii] at h

/-! ## What adding a batch writes -/

namespace LevelDBTxIndex

theorem eq_of_slot_eq {txs : List Transaction} (hlen : txs.length ≤ 2 ^ 32)
    {tx tx' : Transaction} {i j : Nat} (hi : (tx, i) ∈ txs.zipIdx) (hj : (tx', j) ∈ txs.zipIdx)
    (h : UInt32.ofNat i = UInt32.ofNat j) : tx = tx' := by
  have hget := List.mem_zipIdx_iff_getElem?.mp hi
  have hget' := List.mem_zipIdx_iff_getElem?.mp hj
  have hlt := (List.getElem?_eq_some_iff.mp hget).1
  have hlt' := (List.getElem?_eq_some_iff.mp hget').1
  have hij : i = j := by
    have hnat := congrArg UInt32.toNat h
    rw [UInt32.toNat_ofNat_of_lt' (by simp [UInt32.size]; omega),
      UInt32.toNat_ofNat_of_lt' (by simp [UInt32.size]; omega)] at hnat
    exact hnat
  subst hij
  exact Option.some.inj (hget.symm.trans hget')

variable [Crypto] {m : GoMap (List UInt8) (List UInt8)} {b : Batch}

theorem holds_iff_zipIdx : b.Holds t ↔ ∃ tx i, (tx, i) ∈ b.transactions.zipIdx ∧ tx.hash = t := by
  rw [Batch.Holds, List.mem_map]
  constructor
  · intro ⟨tx, htx, ht⟩
    obtain ⟨i, hi⟩ := List.getElem?_of_mem htx
    exact ⟨tx, i, List.mem_zipIdx_iff_getElem?.mpr hi, ht⟩
  · intro ⟨tx, i, hi, ht⟩
    exact ⟨tx, List.mem_of_getElem? (List.mem_zipIdx_iff_getElem?.mp hi), ht⟩

theorem mem_addOps : op ∈ addOps b ↔
    op = .put (makeBatchRoundIdxKey b.digest) (beBytes 8 b.round.toNat) ∨
    ∃ tx i, (tx, i) ∈ b.transactions.zipIdx ∧
      (op = .put (makeTxKey tx.hash) b.digest.bytes ∨
        op = .put (makeBatchTxKey b.digest (UInt32.ofNat i)) tx.hash.bytes) := by
  rw [addOps, List.mem_cons, List.mem_flatMap]
  simp only [txOps, Prod.exists, List.mem_cons, List.not_mem_nil, or_false]

theorem value_of_tx_key (hop : op ∈ addOps b) (hkey : op.key = makeTxKey t) :
    b.Holds t ∧ op.value = some b.digest.bytes := by
  obtain rfl | ⟨tx, i, hi, rfl | rfl⟩ := mem_addOps.mp hop
  · exact absurd hkey.symm (makeTxKey_ne_roundKey _ _)
  · exact ⟨holds_iff_zipIdx.mpr ⟨tx, i, hi, makeTxKey_inj hkey⟩, rfl⟩
  · have hk := isPrefix_makeBatchTxKey b.digest (UInt32.ofNat i)
    rw [show makeBatchTxKey b.digest (UInt32.ofNat i) = makeTxKey t from hkey] at hk
    exact absurd hk (not_isPrefix_makeTxKey _ _)

theorem value_of_slot_key (hop : op ∈ addOps b) (hkey : makeBatchTxPrefix d <+: op.key) :
    d = b.digest ∧ ∃ tx i, (tx, i) ∈ b.transactions.zipIdx ∧
      op = .put (makeBatchTxKey b.digest (UInt32.ofNat i)) tx.hash.bytes := by
  obtain rfl | ⟨tx, i, hi, rfl | rfl⟩ := mem_addOps.mp hop
  · exact absurd hkey (not_isPrefix_makeBatchRoundIdxKey _ _)
  · exact absurd hkey (not_isPrefix_makeTxKey _ _)
  · exact ⟨makeBatchTxPrefix_unique hkey (isPrefix_makeBatchTxKey _ _), tx, i, hi, rfl⟩

theorem get_addOps_tx (t : Hash) : (applyAll m (addOps b)).get (makeTxKey t) =
    if b.Holds t then some b.digest.bytes else m.get (makeTxKey t) := by
  split
  · next ht =>
      obtain ⟨tx, i, hi, rfl⟩ := holds_iff_zipIdx.mp ht
      exact LevelDB.get_applyAll_of_mem ⟨_, mem_addOps.mpr (.inr ⟨tx, i, hi, .inl rfl⟩), rfl⟩
        fun op hop hkey => (value_of_tx_key hop hkey).2
  · next ht =>
      exact LevelDB.get_applyAll_of_ne fun op hop hkey => ht (value_of_tx_key hop hkey).1

theorem get_addOps_slot (hlen : b.transactions.length ≤ 2 ^ 32) {tx : Transaction} {i : Nat}
    (hi : (tx, i) ∈ b.transactions.zipIdx) :
    (applyAll m (addOps b)).get (makeBatchTxKey b.digest (UInt32.ofNat i)) =
      some tx.hash.bytes := by
  refine LevelDB.get_applyAll_of_mem ⟨_, mem_addOps.mpr (.inr ⟨tx, i, hi, .inr rfl⟩), rfl⟩
    fun op hop hkey => ?_
  obtain ⟨-, tx', j, hj, rfl⟩ :=
    value_of_slot_key hop (hkey ▸ isPrefix_makeBatchTxKey b.digest (UInt32.ofNat i))
  rw [eq_of_slot_eq hlen hj hi (makeBatchTxKey_inj hkey)]
  rfl

/-- What is in a slot of the batch is a transaction of it, or was there before. -/
theorem get_addOps_slots {k v : List UInt8} (hk : makeBatchTxPrefix b.digest <+: k)
    (hv : (applyAll m (addOps b)).get k = some v) :
    (∃ tx i, (tx, i) ∈ b.transactions.zipIdx ∧ v = tx.hash.bytes) ∨ m.get k = some v := by
  rcases LevelDB.get_applyAll_eq_some hv with hold | ⟨op, hop, rfl, hvalue⟩
  · exact .inr hold
  · obtain ⟨-, tx, i, hi, rfl⟩ := value_of_slot_key hop hk
    exact .inl ⟨tx, i, hi, (Option.some.inj hvalue).symm⟩

theorem get_addOps_other (hk : makeBatchTxPrefix d <+: k) (hd : d ≠ b.digest) :
    (applyAll m (addOps b)).get k = m.get k :=
  LevelDB.get_applyAll_of_ne fun _ hop hkey => hd (value_of_slot_key hop (hkey ▸ hk)).1

theorem get_addOps_round (hk : batchRoundIdxPrefix <+: k) :
    (applyAll m (addOps b)).get k =
      if k = makeBatchRoundIdxKey b.digest then some (beBytes 8 b.round.toNat) else m.get k := by
  have hvalue : ∀ op ∈ addOps b, op.key = k →
      k = makeBatchRoundIdxKey b.digest ∧ op.value = some (beBytes 8 b.round.toNat) := by
    intro op hop hkey
    obtain rfl | ⟨tx, i, -, rfl | rfl⟩ := mem_addOps.mp hop
    · exact ⟨hkey.symm, rfl⟩
    · obtain rfl : makeTxKey tx.hash = k := hkey
      exact absurd hk (not_roundPrefix_makeTxKey _)
    · obtain rfl : makeBatchTxKey b.digest (UInt32.ofNat i) = k := hkey
      exact absurd hk (not_roundPrefix_makeBatchTxKey _ _)
  split
  · next hkey =>
      exact LevelDB.get_applyAll_of_mem ⟨_, mem_addOps.mpr (.inl rfl), hkey.symm⟩
        fun op hop hop' => (hvalue op hop hop').2
  · next hkey =>
      exact LevelDB.get_applyAll_of_ne fun op hop hop' => hkey (hvalue op hop hop').1

/-! ## What removing a batch leaves -/

omit [Crypto] in
/-- Removing a batch deletes its round, its slots, and the entries of the transactions in
them. -/
theorem removeBatchLocked_of_slots {idx : LevelDBTxIndex} (hworking : idx.db.Working)
    (hslots : ∀ {k v}, idx.db.data.get k = some v → makeBatchTxPrefix d <+: k →
      ∃ t : Hash, v = t.bytes) :
    ∃ data, idx.removeBatchLocked d = (.ok (), { idx with db.data := data }) ∧
      ∀ k v, data.get k = some v ↔ idx.db.data.get k = some v ∧
        k ≠ makeBatchRoundIdxKey d ∧ ¬ makeBatchTxPrefix d <+: k ∧
        ∀ t, k = makeTxKey t → ∀ k', makeBatchTxPrefix d <+: k' →
          idx.db.data.get k' ≠ some t.bytes := by
  obtain ⟨found, hfound, -, hmem⟩ := DB.iterate_of_open hworking.closed (makeBatchTxPrefix d)
  have hops : ∀ op, op ∈ found.flatMap slotOps ++ [.delete (makeBatchRoundIdxKey d)] ↔
      op = .delete (makeBatchRoundIdxKey d) ∨
      ∃ k' t, makeBatchTxPrefix d <+: k' ∧ idx.db.data.get k' = some t.bytes ∧
        (op = .delete k' ∨ op = .delete (makeTxKey t)) := by
    intro op
    have hslot : ∀ {k'} {t : Hash},
        slotOps (k', t.bytes) = [.delete (makeTxKey t), .delete k'] := by
      intro k' t
      simp [slotOps]
    rw [List.mem_append, List.mem_singleton, List.mem_flatMap, or_comm]
    refine or_congr_right ⟨?_, ?_⟩
    · rintro ⟨⟨k', v⟩, hentry, hop⟩
      obtain ⟨hget, hk⟩ := (hmem k' v).mp hentry
      obtain ⟨t, rfl⟩ := hslots hget hk
      rw [hslot, List.mem_cons, List.mem_singleton, or_comm] at hop
      exact ⟨k', t, hk, hget, hop⟩
    · rintro ⟨k', t, hk, hget, hop⟩
      refine ⟨(k', t.bytes), (hmem k' t.bytes).mpr ⟨hget, hk⟩, ?_⟩
      rw [hslot, List.mem_cons, List.mem_singleton, or_comm]
      exact hop
  generalize hbatch : found.flatMap slotOps ++ [.delete (makeBatchRoundIdxKey d)] = batch at hops
  have hnone : ∀ op ∈ batch, op.value = none := by
    intro op hop
    obtain rfl | ⟨_, _, -, -, rfl | rfl⟩ := (hops op).mp hop <;> rfl
  refine ⟨applyAll idx.db.data batch, ?_, fun k v => ?_⟩
  · simp only [removeBatchLocked, hfound, hbatch, hworking.write]
  · rw [LevelDB.get_applyAll_of_delete hnone]
    refine and_congr_right fun hold => ⟨fun hne => ⟨?_, ?_, ?_⟩, ?_⟩
    · rintro rfl
      exact hne _ ((hops _).mpr (.inl rfl)) rfl
    · intro hk
      obtain ⟨t, rfl⟩ := hslots hold hk
      exact hne _ ((hops _).mpr (.inr ⟨k, t, hk, hold, .inl rfl⟩)) rfl
    · rintro t rfl k' hk' hget'
      exact hne _ ((hops _).mpr (.inr ⟨k', t, hk', hget', .inr rfl⟩)) rfl
    · rintro ⟨hround, hslot, htx⟩ op hop hkey
      obtain rfl | ⟨k', t, hk', hget', rfl | rfl⟩ := (hops op).mp hop
      · exact hround hkey.symm
      · obtain rfl : k' = k := hkey
        exact hslot hk'
      · exact htx t hkey.symm k' hk' hget'

end LevelDBTxIndex

/-! ## What the bytes stand for -/

namespace LevelDBTxIndex

variable [Crypto]

/-- The index works, the batches it may be given have digests of their own, up to the
transactions in them, and the transactions of one that it has a round for are known to it. -/
structure Takes (given : Batch → Prop) (idx : LevelDBTxIndex) : Prop where
  opened : idx.closed = false
  working : idx.db.Working
  distinct : ∀ {b b'}, given b → given b' → b.digest = b'.digest → ∀ t, b'.Holds t → b.Holds t
  known : ∀ {b t}, given b → idx.db.data.has (makeBatchRoundIdxKey b.digest) = true → b.Holds t →
    idx.db.data.has (makeTxKey t) = true

theorem Takes.addBatch {given : Batch → Prop} {idx : LevelDBTxIndex} (h : Takes given idx)
    {b : Batch} (hb : given b) :
    Takes given (idx.addBatch b).2 ∧
      ∀ t, idx.db.data.has (makeTxKey t) = true ∨ b.Holds t →
        (idx.addBatch b).2.db.data.has (makeTxKey t) = true := by
  cases hround : idx.db.data.get (makeBatchRoundIdxKey b.digest) with
  | some v =>
    have hadd : idx.addBatch b = (.ok (), idx) := by
      simp [LevelDBTxIndex.addBatch, h.opened, DB.get_of_open h.working.closed, hround]
    rw [hadd]
    exact ⟨h, fun t ht => ht.elim id (h.known hb (GoMap.has_iff.mpr ⟨v, hround⟩))⟩
  | none =>
    have hadd : idx.addBatch b =
        (.ok (), { idx with db.data := applyAll idx.db.data (addOps b) }) := by
      simp [LevelDBTxIndex.addBatch, h.opened, DB.get_of_open h.working.closed, hround,
        h.working.write]
    have hkeep : ∀ t, idx.db.data.has (makeTxKey t) = true ∨ b.Holds t →
        (applyAll idx.db.data (addOps b)).has (makeTxKey t) = true := by
      intro t ht
      rw [GoMap.has, get_addOps_tx]
      split
      · rfl
      · next hnot => exact ht.resolve_right hnot
    rw [hadd]
    refine ⟨⟨h.opened, ⟨h.working.full, h.working.closed⟩, h.distinct, ?_⟩, hkeep⟩
    intro b' t hb' hhas ht
    have hk : batchRoundIdxPrefix <+: makeBatchRoundIdxKey b'.digest := List.prefix_append _ _
    rw [GoMap.has, get_addOps_round hk] at hhas
    split at hhas
    · next hkey =>
        exact hkeep t (.inr (h.distinct hb hb' (makeBatchRoundIdxKey_inj hkey).symm t ht))
    · exact hkeep t (.inl (h.known hb' hhas ht))

instance : AcceptingTxIndex LevelDBTxIndex where
  accepts := Takes
  hasTx_addBatch {given idx b t} h hb ht := by
    have hhas : ∀ {idx : LevelDBTxIndex}, Takes given idx →
        idx.hasTx t = idx.db.data.has (makeTxKey t) := fun h => by
      simp [LevelDBTxIndex.hasTx, h.opened, DB.has_of_open h.working.closed]
    have ht : idx.hasTx t = true ∨ b.Holds t := ht
    show (idx.addBatch b).2.hasTx t = true
    obtain ⟨hnext, hkeep⟩ := h.addBatch hb
    rw [hhas h] at ht
    rw [hhas hnext]
    exact hkeep t ht
  accepts_addBatch h hb := (h.addBatch hb).1

/-- The index is open and made of these batches: every transaction that has an entry is
in one of them, the one the entry leads to, and they all have their slots and rounds. It
does not say that every transaction of theirs has an entry. -/
structure Represents (idx : LevelDBTxIndex) (live : List Batch) : Prop where
  opened : idx.closed = false
  working : idx.db.Working
  distinct : ∀ {b b'}, b ∈ live → b' ∈ live → b'.digest = b.digest → b' = b
  known : ∀ {t v}, idx.db.data.get (makeTxKey t) = some v →
    ∃ b ∈ live, b.Holds t ∧ v = b.digest.bytes
  slot : ∀ {b t}, b ∈ live → b.Holds t →
    ∃ k, makeBatchTxPrefix b.digest <+: k ∧ idx.db.data.get k = some t.bytes
  slots : ∀ {d k v}, idx.db.data.get k = some v → makeBatchTxPrefix d <+: k →
    ∃ b ∈ live, b.digest = d ∧ ∃ t, b.Holds t ∧ v = t.bytes
  round : ∀ {b}, b ∈ live →
    idx.db.data.get (makeBatchRoundIdxKey b.digest) = some (beBytes 8 b.round.toNat)
  rounds : ∀ {k v}, idx.db.data.get k = some v → batchRoundIdxPrefix <+: k →
    ∃ b ∈ live, k = makeBatchRoundIdxKey b.digest

variable {idx : LevelDBTxIndex} {live : List Batch}

theorem represents_new : new.Represents [] where
  opened := rfl
  working := DB.working_openFile
  distinct h := absurd h (by simp)
  known h := absurd h GoMap.get_empty_ne
  slot h := absurd h (by simp)
  slots h := absurd h GoMap.get_empty_ne
  round h := absurd h (by simp)
  rounds h := absurd h GoMap.get_empty_ne

namespace Represents

theorem hasTx (h : idx.Represents live) (t : Hash) :
    idx.hasTx t = idx.db.data.has (makeTxKey t) := by
  simp [LevelDBTxIndex.hasTx, h.opened, DB.has_of_open h.working.closed]

theorem getBatchForTx (h : idx.Represents live) (hhas : idx.hasTx t = true) :
    ∃ b ∈ live, b.Holds t ∧ idx.getBatchForTx t = .ok b.digest := by
  rw [h.hasTx, GoMap.has_iff] at hhas
  obtain ⟨v, hv⟩ := hhas
  obtain ⟨b, hb, hin, rfl⟩ := h.known hv
  refine ⟨b, hb, hin, ?_⟩
  simp [LevelDBTxIndex.getBatchForTx, h.opened, DB.get_of_open h.working.closed, hv]

theorem congr (h : idx.Represents live) {live' : List Batch}
    (hmem : ∀ b, b ∈ live' ↔ b ∈ live) : idx.Represents live' where
  opened := h.opened
  working := h.working
  distinct hb hb' := h.distinct ((hmem _).mp hb) ((hmem _).mp hb')
  known hv := by simpa only [hmem] using h.known hv
  slot hb := h.slot ((hmem _).mp hb)
  slots hv hk := by simpa only [hmem] using h.slots hv hk
  round hb := h.round ((hmem _).mp hb)
  rounds hv hk := by simpa only [hmem] using h.rounds hv hk

/-! ## Adding -/

theorem addBatch_live (h : idx.Represents live) {b : Batch} (hb : b ∈ live) :
    idx.addBatch b = (.ok (), idx) := by
  simp [LevelDBTxIndex.addBatch, h.opened, DB.get_of_open h.working.closed, h.round hb]

/-- A batch whose digest is new is indexed with its round, its slots and an entry for
each transaction. -/
theorem addBatch_new (h : idx.Represents live) {b : Batch}
    (hnew : ∀ b' ∈ live, b'.digest ≠ b.digest) (hlen : b.transactions.length ≤ 2 ^ 32) :
    (idx.addBatch b).2.Represents (live ++ [b]) ∧
      ∀ t, (idx.addBatch b).2.hasTx t = true ↔ idx.hasTx t = true ∨ b.Holds t := by
  have hfree : idx.db.data.get (makeBatchRoundIdxKey b.digest) = none := by
    cases hget : idx.db.data.get (makeBatchRoundIdxKey b.digest) with
    | none => rfl
    | some v =>
      obtain ⟨b', hb', hkey⟩ := h.rounds hget (List.prefix_append _ _)
      exact absurd (makeBatchRoundIdxKey_inj hkey).symm (hnew b' hb')
  have hadd : idx.addBatch b =
      (.ok (), { idx with db.data := applyAll idx.db.data (addOps b) }) := by
    simp [LevelDBTxIndex.addBatch, h.opened, DB.get_of_open h.working.closed, hfree,
      h.working.write]
  have hlive : ∀ {b'}, b' ∈ live ++ [b] ↔ b' ∈ live ∨ b' = b := by simp
  have hrep : LevelDBTxIndex.Represents { idx with db.data := applyAll idx.db.data (addOps b) }
      (live ++ [b]) := by
    refine ⟨h.opened, ⟨h.working.full, h.working.closed⟩, ?_, ?_, ?_, ?_, ?_, ?_⟩
    · intro b₁ b₂ hb₁ hb₂ hd
      rcases hlive.mp hb₁ with hb₁ | hb₁ <;> rcases hlive.mp hb₂ with hb₂ | hb₂
      · exact h.distinct hb₁ hb₂ hd
      · exact absurd (hb₂ ▸ hd.symm) (hnew b₁ hb₁)
      · exact absurd (hb₁ ▸ hd) (hnew b₂ hb₂)
      · rw [hb₁, hb₂]
    · intro t v hv
      rw [get_addOps_tx] at hv
      split at hv
      · next ht => exact ⟨b, hlive.mpr (.inr rfl), ht, (Option.some.inj hv).symm⟩
      · obtain ⟨b', hb', ht, hbytes⟩ := h.known hv
        exact ⟨b', hlive.mpr (.inl hb'), ht, hbytes⟩
    · intro b' t hb' ht
      rcases hlive.mp hb' with hb' | rfl
      · obtain ⟨k, hk, hget⟩ := h.slot hb' ht
        exact ⟨k, hk, (get_addOps_other hk (hnew b' hb')).trans hget⟩
      · obtain ⟨tx, i, hi, rfl⟩ := holds_iff_zipIdx.mp ht
        exact ⟨_, isPrefix_makeBatchTxKey _ _, get_addOps_slot hlen hi⟩
    · intro d k v hv hk
      by_cases hd : d = b.digest
      · subst hd
        -- Nothing was in a slot of the new batch before.
        rcases get_addOps_slots hk hv with ⟨tx, i, hi, rfl⟩ | hold
        · exact ⟨b, hlive.mpr (.inr rfl), rfl, tx.hash, holds_iff_zipIdx.mpr ⟨tx, i, hi, rfl⟩, rfl⟩
        · obtain ⟨b', hb', hd', -⟩ := h.slots hold hk
          exact absurd hd' (hnew b' hb')
      · rw [get_addOps_other hk hd] at hv
        obtain ⟨b', hb', hd', ht⟩ := h.slots hv hk
        exact ⟨b', hlive.mpr (.inl hb'), hd', ht⟩
    · intro b' hb'
      have hk : batchRoundIdxPrefix <+: makeBatchRoundIdxKey b'.digest := List.prefix_append _ _
      rw [get_addOps_round hk]
      rcases hlive.mp hb' with hb' | rfl
      · rw [if_neg fun he => hnew b' hb' (makeBatchRoundIdxKey_inj he)]
        exact h.round hb'
      · rw [if_pos rfl]
    · intro k v hv hk
      rw [get_addOps_round hk] at hv
      split at hv
      · next hkey => exact ⟨b, hlive.mpr (.inr rfl), hkey⟩
      · obtain ⟨b', hb', hkey⟩ := h.rounds hv hk
        exact ⟨b', hlive.mpr (.inl hb'), hkey⟩
  rw [hadd]
  refine ⟨hrep, fun t => ?_⟩
  rw [hrep.hasTx, h.hasTx, GoMap.has, GoMap.has, get_addOps_tx]
  split
  · next ht => simp [ht]
  · next ht => simp [ht]

/-! ## Removing -/

/-- What a removal of one batch leaves of each kind of entry. -/
structure Leaves (data data' : GoMap (List UInt8) (List UInt8)) (live : List Batch) (d : Hash) :
    Prop where
  old : ∀ {k v}, data'.get k = some v → data.get k = some v
  tx : ∀ {t v}, data'.get (makeTxKey t) = some v ↔
    data.get (makeTxKey t) = some v ∧ ∀ b ∈ live, b.digest = d → ¬ b.Holds t
  slot : ∀ {d' k v}, makeBatchTxPrefix d' <+: k →
    (data'.get k = some v ↔ data.get k = some v ∧ d' ≠ d)
  round : ∀ {d' v}, data'.get (makeBatchRoundIdxKey d') = some v ↔
    data.get (makeBatchRoundIdxKey d') = some v ∧ d' ≠ d

theorem leaves_removeBatchLocked (h : idx.Represents live) (d : Hash) :
    ∃ data, idx.removeBatchLocked d = (.ok (), { idx with db.data := data }) ∧
      Leaves idx.db.data data live d := by
  have hslots : ∀ {k v}, idx.db.data.get k = some v → makeBatchTxPrefix d <+: k →
      ∃ t : Hash, v = t.bytes := by
    intro k v hget hk
    obtain ⟨-, -, -, t, -, hv⟩ := h.slots hget hk
    exact ⟨t, hv⟩
  obtain ⟨data, hremove, hget⟩ := removeBatchLocked_of_slots h.working hslots
  refine ⟨data, hremove, fun {k v} hv => ((hget k v).mp hv).1, ?_, ?_, ?_⟩
  · intro t v
    rw [hget]
    refine and_congr_right fun _ => ⟨?_, ?_⟩
    · rintro ⟨-, -, hkeep⟩ b hb hd ht
      obtain ⟨k, hk, hslot⟩ := h.slot hb ht
      exact hkeep t rfl k (hd ▸ hk) hslot
    · intro hkeep
      refine ⟨makeTxKey_ne_roundKey _ _, not_isPrefix_makeTxKey _ _, fun t' ht' k hk hslot => ?_⟩
      obtain rfl := makeTxKey_inj ht'
      obtain ⟨b, hb, hd, t', ht, hbytes⟩ := h.slots hslot hk
      exact hkeep b hb hd (Hash.bytes_inj hbytes ▸ ht)
  · intro d' k v hk
    rw [hget]
    refine and_congr_right fun hold => ⟨?_, ?_⟩
    · rintro ⟨-, hslot, -⟩ hd
      exact hslot (hd ▸ hk)
    · intro hd
      refine ⟨?_, fun hk' => hd (makeBatchTxPrefix_unique hk hk'), ?_⟩
      · rintro rfl
        exact not_isPrefix_makeBatchRoundIdxKey d' d hk
      · rintro t rfl
        exact absurd hk (not_isPrefix_makeTxKey d' t)
  · intro d' v
    rw [hget]
    refine and_congr_right fun _ => ⟨?_, ?_⟩
    · rintro ⟨hround, -⟩ hd
      exact hround (hd ▸ rfl)
    · intro hd
      refine ⟨fun hkey => hd (makeBatchRoundIdxKey_inj hkey),
        not_isPrefix_makeBatchRoundIdxKey _ _, fun t ht => ?_⟩
      exact absurd ht.symm (makeTxKey_ne_roundKey t d')

theorem without (h : idx.Represents live) {data : GoMap (List UInt8) (List UInt8)}
    (hleaves : Leaves idx.db.data data live d) :
    LevelDBTxIndex.Represents { idx with db.data := data }
      (live.filter fun b => b.digest ≠ d) := by
  have hstays : ∀ {b}, b ∈ live.filter (fun b => b.digest ≠ d) ↔ b ∈ live ∧ b.digest ≠ d := by
    intro b
    rw [List.mem_filter, decide_eq_true_iff]
  refine ⟨h.opened, ⟨h.working.full, h.working.closed⟩, ?_, ?_, ?_, ?_, ?_, ?_⟩
  · intro b b' hb hb' hd
    exact h.distinct (hstays.mp hb).1 (hstays.mp hb').1 hd
  · intro t v hv
    obtain ⟨hv, hkeep⟩ := hleaves.tx.mp hv
    obtain ⟨b, hb, ht, hbytes⟩ := h.known hv
    exact ⟨b, hstays.mpr ⟨hb, fun hd => hkeep b hb hd ht⟩, ht, hbytes⟩
  · intro b t hb ht
    obtain ⟨hb, hd⟩ := hstays.mp hb
    obtain ⟨k, hk, hold⟩ := h.slot hb ht
    exact ⟨k, hk, (hleaves.slot hk).mpr ⟨hold, hd⟩⟩
  · intro d' k v hv hk
    obtain ⟨hv, hd⟩ := (hleaves.slot hk).mp hv
    obtain ⟨b, hb, rfl, ht⟩ := h.slots hv hk
    exact ⟨b, hstays.mpr ⟨hb, hd⟩, rfl, ht⟩
  · intro b hb
    obtain ⟨hb, hd⟩ := hstays.mp hb
    exact hleaves.round.mpr ⟨h.round hb, hd⟩
  · intro k v hv hk
    obtain ⟨b, hb, rfl⟩ := h.rounds (hleaves.old hv) hk
    exact ⟨b, hstays.mpr ⟨hb, (hleaves.round.mp hv).2⟩, rfl⟩

/-- Removing a batch takes it from the batches, and the entries of its transactions from
whichever batch they led to. -/
theorem removeBatchLocked (h : idx.Represents live) (d : Hash) :
    (idx.removeBatchLocked d).1 = .ok () ∧
      (idx.removeBatchLocked d).2.Represents (live.filter fun b => b.digest ≠ d) ∧
      ∀ t, (idx.removeBatchLocked d).2.hasTx t = true ↔
        idx.hasTx t = true ∧ ∀ b ∈ live, b.digest = d → ¬ b.Holds t := by
  obtain ⟨data, hremove, hleaves⟩ := h.leaves_removeBatchLocked d
  have hrep := h.without hleaves
  rw [hremove]
  refine ⟨rfl, hrep, fun t => ?_⟩
  rw [hrep.hasTx, h.hasTx, GoMap.has_iff, GoMap.has_iff]
  simp only [hleaves.tx]
  exact exists_and_right

theorem removeAll (h : idx.Represents live) (ds : List Hash) :
    (idx.removeAll ds).1 = .ok () ∧
      (idx.removeAll ds).2.Represents (live.filter fun b => b.digest ∉ ds) ∧
      ∀ t, (idx.removeAll ds).2.hasTx t = true ↔
        idx.hasTx t = true ∧ ∀ b ∈ live, b.digest ∈ ds → ¬ b.Holds t := by
  induction ds generalizing idx live with
  | nil => exact ⟨rfl, by simpa [LevelDBTxIndex.removeAll] using h, fun t => by
      simp [LevelDBTxIndex.removeAll]⟩
  | cons d ds ih =>
    obtain ⟨hok, hrep, hhas⟩ := h.removeBatchLocked d
    obtain ⟨hok', hrep', hhas'⟩ := ih hrep
    have hloop : idx.removeAll (d :: ds) = (idx.removeBatchLocked d).2.removeAll ds := by
      simp [LevelDBTxIndex.removeAll, hok]
    have hlive : (live.filter fun b => b.digest ≠ d).filter (fun b => b.digest ∉ ds) =
        live.filter fun b => b.digest ∉ d :: ds := by
      rw [List.filter_filter]
      refine List.filter_congr fun b _ => ?_
      simp [Bool.and_comm]
    rw [hloop, ← hlive]
    refine ⟨hok', hrep', fun t => ?_⟩
    rw [hhas', hhas]
    constructor
    · intro ⟨⟨hold, hfirst⟩, hrest⟩
      refine ⟨hold, fun b hb hin => ?_⟩
      by_cases hd : b.digest = d
      · exact hfirst b hb hd
      · exact hrest b (List.mem_filter.mpr ⟨hb, decide_eq_true hd⟩)
          ((List.mem_cons.mp hin).resolve_left hd)
    · intro ⟨hold, hall⟩
      refine ⟨⟨hold, fun b hb hd => hall b hb (hd ▸ List.mem_cons_self)⟩, fun b hb hin => ?_⟩
      exact hall b (List.mem_filter.mp hb).1 (List.mem_cons_of_mem _ hin)

/-- The batches a prune removes are those of lower rounds. -/
theorem pruneOlderThan (h : idx.Represents live) (round : UInt64) :
    (idx.pruneOlderThan round).2.Represents (live.filter fun b => ¬ b.round < round) ∧
      ∀ t, (idx.pruneOlderThan round).2.hasTx t = true ↔
        idx.hasTx t = true ∧ ∀ b ∈ live, b.round < round → ¬ b.Holds t := by
  obtain ⟨found, hfound, -, hmem⟩ := DB.iterate_of_open h.working.closed batchRoundIdxPrefix
  have hread : ∀ b : Batch, olderThan round (makeBatchRoundIdxKey b.digest,
      beBytes 8 b.round.toNat) = if round ≤ b.round then none else some b.digest := by
    intro b
    have hdrop : (makeBatchRoundIdxKey b.digest).drop batchRoundIdxPrefix.length =
        b.digest.bytes := List.drop_left' rfl
    rw [olderThan, if_neg (by simp [makeBatchRoundIdxKey]), hdrop, readUint64_field,
      Hash.copyFrom_bytes]
  have holder : ∀ b ∈ live, b.digest ∈ found.filterMap (olderThan round) ↔ b.round < round := by
    intro b hb
    rw [List.mem_filterMap, ← UInt64.not_le]
    constructor
    · intro ⟨(k, v), hentry, hd⟩
      obtain ⟨hget, hk⟩ := (hmem k v).mp hentry
      obtain ⟨b', hb', rfl⟩ := h.rounds hget hk
      obtain rfl := Option.some.inj (hget.symm.trans (h.round hb'))
      rw [hread] at hd
      split at hd
      · cases hd
      · next hle =>
          obtain rfl := h.distinct hb hb' (Option.some.inj hd)
          exact hle
    · intro hle
      refine ⟨(makeBatchRoundIdxKey b.digest, beBytes 8 b.round.toNat),
        (hmem _ _).mpr ⟨h.round hb, List.prefix_append _ _⟩, ?_⟩
      rw [hread, if_neg hle]
  obtain ⟨hok, hrep, hhas⟩ := h.removeAll (found.filterMap (olderThan round))
  have hprune : (idx.pruneOlderThan round).2 =
      (idx.removeAll (found.filterMap (olderThan round))).2 := by
    simp [LevelDBTxIndex.pruneOlderThan, h.opened, hfound, hok]
  have hlive : (live.filter fun b => b.digest ∉ found.filterMap (olderThan round)) =
      live.filter fun b => ¬ b.round < round :=
    List.filter_congr fun b hb => decide_eq_decide.mpr (not_congr (holder b hb))
  rw [hprune, ← hlive]
  refine ⟨hrep, fun t => (hhas t).trans (and_congr_right fun _ => ?_)⟩
  exact forall₂_congr fun b hb => by rw [holder b hb]

end Represents

end LevelDBTxIndex

end DagMempool
