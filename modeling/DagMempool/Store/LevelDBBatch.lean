import DagMempool.Lib.RankIndex
import DagMempool.Store.LevelDB

/-!
# The batch store on disk

Batches under their digests, and an index of empty entries under round and digest,
which is what listing and deleting by round go through. The highest round ever saved
is kept in an entry of its own; nothing in the interface reads it.

`Represents` is what the bytes stand for. The entries for batches are those of a
map from digests to batches, and the entries of the index are those that belong to
the batches of the map. Saving and deleting keep it, so a store that starts out empty
never holds anything else.
-/

namespace DagMempool

open LevelDB (DB Op applyAll)

def batchPrefix : List UInt8 := ascii ['B', ':']

def batchRoundPrefix : List UInt8 := ascii ['B', 'R', ':']

def batchHighestKey : List UInt8 :=
  ascii ['B', 'M', ':', 'h', 'i', 'g', 'h', 'e', 's', 't', '_', 'r', 'o', 'u', 'n', 'd']

def makeBatchKey (digest : Hash) : List UInt8 := batchPrefix ++ digest.bytes

def makeBatchRoundPrefix (round : UInt64) : List UInt8 :=
  batchRoundPrefix ++ beBytes 8 round.toNat

def makeBatchRoundKey (round : UInt64) (digest : Hash) : List UInt8 :=
  batchRoundPrefix ++ (beBytes 8 round.toNat ++ digest.bytes)

/-- `none` where the key is too short. -/
def extractDigestFromRoundKey (key start : List UInt8) : Option Hash :=
  if key.length < start.length + 32 then none
  else some (Hash.copyFrom ((key.drop start.length).take 32))

/-- `none` where the key is too short. -/
def parseRoundKey (key : List UInt8) : Option (UInt64 × Hash) :=
  if key.length < batchRoundPrefix.length + 8 + 32 then none
  else
    let fields := key.drop batchRoundPrefix.length
    some (readUint64 fields, Hash.copyFrom (fields.drop 8))

structure LevelDBBatchStore where
  db : DB
  closed : Bool

namespace LevelDBBatchStore

/-- `NewLevelDBBatchStore`, of a directory with nothing in it. -/
def new : LevelDBBatchStore := { db := .openFile, closed := false }

def getHighestRound (s : LevelDBBatchStore) : UInt64 :=
  match s.db.get batchHighestKey with
  | .error _ => 0
  | .ok data => if data.length < 8 then 0 else readUint64 data

/-- The write batch of `SaveBatch`. -/
def saveOps (s : LevelDBBatchStore) (b : Batch) (data : List UInt8) : List Op :=
  [.put (makeBatchKey b.digest) data, .put (makeBatchRoundKey b.round b.digest) []] ++
    if s.getHighestRound < b.round then [.put batchHighestKey (beBytes 8 b.round.toNat)] else []

section

/-- The keys to delete for an index entry: that of its batch, and its own. -/
def toDelete (round : UInt64) (key : List UInt8) : List Op :=
  match parseRoundKey key with
  | none => []
  | some (r, digest) => if r < round then [.delete (makeBatchKey digest), .delete key] else []

/-- `NewLevelDBBatchStore`, where there was one before. -/
def reopen (s : LevelDBBatchStore) : LevelDBBatchStore := { db := s.db.reopen, closed := false }

variable [Cramberry Batch]

def saveBatch (s : LevelDBBatchStore) (b : Batch) : Except GoError Unit × LevelDBBatchStore :=
  if s.closed then (.error .notRunning, s)
  else match s.db.has (makeBatchKey b.digest) with
    | .error err => (.error (.wrap "failed to check batch existence" err.text), s)
    | .ok true => (.ok (), s)
    | .ok false => match Cramberry.marshal b with
      | .error err => (.error (.wrap "failed to encode batch" err.text), s)
      | .ok data =>
        let written := s.db.write (s.saveOps b data)
        match written.1 with
        | .error err =>
          (.error (.wrap "failed to write batch" err.text), { s with db := written.2 })
        | .ok () => (.ok (), { s with db := written.2 })

def getBatch (s : LevelDBBatchStore) (digest : Hash) : Except GoError Batch :=
  if s.closed then .error .notRunning
  else match s.db.get (makeBatchKey digest) with
    | .error .notFound => .error .batchNotFound
    | .error err => .error (.wrap "failed to get batch" err.text)
    | .ok data => match Cramberry.unmarshal data with
      | .error err => .error (.wrap "failed to decode batch" err.text)
      | .ok batch => .ok batch

def hasBatch (s : LevelDBBatchStore) (digest : Hash) : Bool :=
  if s.closed then false
  else match s.db.has (makeBatchKey digest) with
    | .error _ => false
    | .ok has => has

/-- `none` where the batch is not there or does not decode. -/
def getBatchInternal (s : LevelDBBatchStore) (digest : Hash) : Option Batch :=
  match s.db.get (makeBatchKey digest) with
  | .error _ => none
  | .ok data => (Cramberry.unmarshal data).toOption

/-- An index entry whose digest or batch cannot be read is passed over. -/
def getBatchesByRound (s : LevelDBBatchStore) (round : UInt64) : Except GoError (List Batch) :=
  if s.closed then .error .notRunning
  else
    let start := makeBatchRoundPrefix round
    match s.db.iterate start with
    | .error err => .error (.wrap "iteration error" err.text)
    | .ok found => .ok (found.filterMap fun entry =>
      (extractDigestFromRoundKey entry.1 start).bind s.getBatchInternal)

def deleteBatchesBefore (s : LevelDBBatchStore) (round : UInt64) :
    Except GoError Unit × LevelDBBatchStore :=
  if s.closed then (.error .notRunning, s)
  else match s.db.iterate batchRoundPrefix with
    | .error err => (.error (.wrap "iteration error" err.text), s)
    | .ok found =>
      let batch := found.flatMap fun entry => toDelete round entry.1
      if batch.isEmpty then (.ok (), s)
      else
        let written := s.db.write batch
        match written.1 with
        | .error err =>
          (.error (.wrap "failed to delete batches" err.text), { s with db := written.2 })
        | .ok () => (.ok (), { s with db := written.2 })

def close (s : LevelDBBatchStore) : Except GoError Unit × LevelDBBatchStore :=
  if s.closed then (.ok (), s) else (.ok (), { db := s.db.close, closed := true })

instance : BatchStore LevelDBBatchStore where
  saveBatch := saveBatch
  getBatch := getBatch
  hasBatch := hasBatch
  getBatchesByRound := getBatchesByRound
  deleteBatchesBefore := deleteBatchesBefore

instance : Closer LevelDBBatchStore where
  close := close

instance : Reopens LevelDBBatchStore where
  reopen := reopen

end

end LevelDBBatchStore

/-! ## Keys -/

theorem makeBatchKey_inj {d d' : Hash} (h : makeBatchKey d = makeBatchKey d') : d = d' :=
  Hash.bytes_inj (List.append_cancel_left h)

theorem makeBatchRoundKey_inj {r r' : UInt64} {d d' : Hash}
    (h : makeBatchRoundKey r d = makeBatchRoundKey r' d') : r = r' ∧ d = d' := by
  obtain ⟨hround, hdigest⟩ := List.append_inj (List.append_cancel_left h) (by simp)
  exact ⟨beBytes_uint64_inj hround, Hash.bytes_inj hdigest⟩

variable {b : Batch} (r : UInt64) {d : Hash}

theorem isPrefix_makeBatchRoundKey (d : Hash) : batchRoundPrefix <+: makeBatchRoundKey r d :=
  List.prefix_append _ _

/-- The entries for batches and the highest round are no part of the index. -/
theorem not_isPrefix_makeBatchKey (d : Hash) : ¬ batchRoundPrefix <+: makeBatchKey d := by
  intro h
  simp [batchRoundPrefix, makeBatchKey, batchPrefix, ascii] at h

theorem not_isPrefix_batchHighestKey : ¬ batchRoundPrefix <+: batchHighestKey := by decide

theorem batchHighestKey_ne (d : Hash) : batchHighestKey ≠ makeBatchKey d := by
  intro h
  have hlen := congrArg List.length h
  simp [makeBatchKey, batchHighestKey, batchPrefix, ascii] at hlen

theorem batchHighestKey_ne_roundKey (d : Hash) : batchHighestKey ≠ makeBatchRoundKey r d := fun h =>
  not_isPrefix_batchHighestKey (h ▸ isPrefix_makeBatchRoundKey r d)

theorem makeBatchKey_ne_roundKey (d : Hash) (r : UInt64) (d' : Hash) :
    makeBatchKey d ≠ makeBatchRoundKey r d' := fun h =>
  not_isPrefix_makeBatchKey d (h ▸ isPrefix_makeBatchRoundKey r d')

theorem makeBatchRoundPrefix_isPrefix {r r' : UInt64} :
    makeBatchRoundPrefix r <+: makeBatchRoundKey r' d ↔ r' = r := by
  rw [makeBatchRoundPrefix, makeBatchRoundKey, List.prefix_append_right_inj]
  constructor
  · intro h
    exact (beBytes_uint64_inj (eq_of_isPrefix_append (by simp) h)).symm
  · intro h
    subst h
    exact List.prefix_append _ _

theorem extractDigestFromRoundKey_key (r r' : UInt64) (d : Hash) :
    extractDigestFromRoundKey (makeBatchRoundKey r' d) (makeBatchRoundPrefix r) = some d := by
  have hdrop : (makeBatchRoundKey r' d).drop (makeBatchRoundPrefix r).length = d.bytes := by
    rw [makeBatchRoundKey, ← List.append_assoc]
    exact List.drop_left' (by simp [makeBatchRoundPrefix])
  rw [extractDigestFromRoundKey, hdrop,
    if_neg (by simp [makeBatchRoundKey, makeBatchRoundPrefix])]
  rw [List.take_of_length_le (by simp), Hash.copyFrom_bytes]

theorem parseRoundKey_key (d : Hash) : parseRoundKey (makeBatchRoundKey r d) = some (r, d) := by
  have hdrop : (makeBatchRoundKey r d).drop batchRoundPrefix.length =
      beBytes 8 r.toNat ++ d.bytes := List.drop_left' rfl
  have hdigest : (beBytes 8 r.toNat ++ d.bytes).drop 8 = d.bytes := List.drop_left' (by simp)
  rw [parseRoundKey, if_neg (by simp [makeBatchRoundKey])]
  dsimp only
  rw [hdrop, hdigest, readUint64_beBytes, Hash.copyFrom_bytes]

/-! ## What the bytes stand for -/

namespace LevelDBBatchStore

theorem get_saveOps (s : LevelDBBatchStore) (b : Batch) (data : List UInt8) {k : List UInt8}
    (hk : k ≠ batchHighestKey) :
    (applyAll s.db.data (s.saveOps b data)).get k =
      if k = makeBatchKey b.digest then some data
      else if k = makeBatchRoundKey b.round b.digest then some []
      else s.db.data.get k := by
  refine LevelDB.get_applyAll_puts (makeBatchKey_ne_roundKey _ _ _) fun op hop => ?_
  split at hop
  · rw [List.mem_singleton.mp hop]
    exact hk.symm
  · cases hop

theorem get_saveOps_batchKey (s : LevelDBBatchStore) (b : Batch) (data : List UInt8) (d : Hash) :
    (applyAll s.db.data (s.saveOps b data)).get (makeBatchKey d) =
      if d = b.digest then some data else s.db.data.get (makeBatchKey d) := by
  rw [s.get_saveOps b data (batchHighestKey_ne d).symm, if_neg (makeBatchKey_ne_roundKey _ _ _)]
  by_cases hd : d = b.digest
  · rw [if_pos hd, if_pos (by rw [hd])]
  · rw [if_neg hd, if_neg fun he => hd (makeBatchKey_inj he)]

variable [Cramberry Batch]

/-- The store is open and holds these batches, and no others. -/
structure Represents (s : LevelDBBatchStore) (held : Hash → Option Batch) : Prop where
  opened : s.closed = false
  working : s.db.Working
  keyed : ∀ {d b}, held d = some b → b.digest = d
  stored : ∀ {d b}, held d = some b →
    ∃ data, s.db.data.get (makeBatchKey d) = some data ∧ Cramberry.unmarshal data = .ok b
  free : ∀ {d}, held d = none → s.db.data.get (makeBatchKey d) = none
  indexed : ∀ {d b}, held d = some b →
    ∃ v, s.db.data.get (makeBatchRoundKey b.round d) = some v
  listed : ∀ {k v}, s.db.data.get k = some v → batchRoundPrefix <+: k →
    ∃ d b, held d = some b ∧ k = makeBatchRoundKey b.round d

variable {s : LevelDBBatchStore} {held : Hash → Option Batch}

theorem represents_new : new.Represents fun _ => none where
  opened := rfl
  working := DB.working_openFile
  keyed h := absurd h (by simp)
  stored h := absurd h (by simp)
  free _ := GoMap.get_empty _
  indexed h := absurd h (by simp)
  listed h := absurd h GoMap.get_empty_ne

/-- A save is refused and changes nothing, or the digest is taken, or the batch is
written. -/
theorem saveBatch_cases (s : LevelDBBatchStore) (b : Batch) :
    (∃ err, s.saveBatch b = (.error err, s)) ∨
      (s.saveBatch b = (.ok (), s) ∧ s.hasBatch b.digest = true) ∨
      ∃ data, s.closed = false ∧ s.db.closed = false ∧
        s.db.data.has (makeBatchKey b.digest) = false ∧ s.saveBatch b =
          (.ok (), { s with db := { s.db with
            data := applyAll s.db.data (s.saveOps b data) } }) := by
  unfold saveBatch
  split
  · exact .inl ⟨_, rfl⟩
  · next hopen =>
      split
      · exact .inl ⟨_, rfl⟩
      · next hhas =>
          refine .inr (.inl ⟨rfl, ?_⟩)
          rw [LevelDBBatchStore.hasBatch, if_neg hopen, hhas]
      · next hfree =>
          split
          · exact .inl ⟨_, rfl⟩
          · next data _ =>
              rcases s.db.write_cases (s.saveOps b data) with ⟨err, hwrite⟩ | ⟨hdb, hwrite⟩
              · rw [hwrite]
                exact .inl ⟨_, rfl⟩
              · rw [LevelDB.DB.has_of_open hdb] at hfree
                rw [hwrite]
                exact .inr (.inr ⟨data, Bool.eq_false_iff.mpr hopen, hdb,
                  Except.ok.inj hfree, rfl⟩)

instance : ReportsSaves LevelDBBatchStore where
  has_of_ok {s b} h := by
    change (s.saveBatch b).1 = .ok () at h
    show (s.saveBatch b).2.hasBatch b.digest = true
    rcases s.saveBatch_cases b with ⟨err, heq⟩ | ⟨heq, hhas⟩ | ⟨data, hopen, hdb, -, heq⟩
    · rw [heq] at h
      cases h
    · rw [heq]
      exact hhas
    · have hget := s.get_saveOps_batchKey b data b.digest
      simp [heq, LevelDBBatchStore.hasBatch, hopen, DB.has, hdb, GoMap.has, hget]
  eq_of_error {s b err} h := by
    change (s.saveBatch b).1 = .error err at h
    show (s.saveBatch b).2 = s
    rcases s.saveBatch_cases b with ⟨err', heq⟩ | ⟨heq, -⟩ | ⟨data, -, -, -, heq⟩
    · rw [heq]
    · rw [heq]
    · rw [heq] at h
      cases h

namespace Represents

theorem filed (h : s.Represents held) : Filed Batch.digest makeBatchKey s.db.data held :=
  ⟨h.keyed, h.stored, h.free⟩

theorem hasBatch (h : s.Represents held) (d : Hash) : s.hasBatch d = (held d).isSome := by
  simp [LevelDBBatchStore.hasBatch, h.opened, DB.has_of_open h.working.closed, h.filed.has]

theorem getBatch (h : s.Represents held) (d : Hash) :
    s.getBatch d = match held d with
      | none => .error .batchNotFound
      | some b => .ok b := by
  simp only [LevelDBBatchStore.getBatch, h.opened, DB.get_of_open h.working.closed]
  cases hd : held d with
  | none => simp [h.free hd]
  | some b =>
    obtain ⟨data, hdata, hread⟩ := h.stored hd
    simp [hdata, hread]

theorem getBatchInternal (h : s.Represents held) (d : Hash) : s.getBatchInternal d = held d := by
  simp only [LevelDBBatchStore.getBatchInternal, DB.get_of_open h.working.closed]
  cases hd : held d with
  | none => simp [h.free hd]
  | some b =>
    obtain ⟨data, hdata, hread⟩ := h.stored hd
    simp [hdata, hread, Except.toOption]

theorem getBatchesByRound (h : s.Represents held) (r : UInt64) :
    ∃ bs, s.getBatchesByRound r = .ok bs ∧ bs.Nodup ∧
      ∀ b, b ∈ bs ↔ held b.digest = some b ∧ b.round = r := by
  obtain ⟨found, hfound, hnodup, hmem⟩ :=
    DB.iterate_of_open h.working.closed (makeBatchRoundPrefix r)
  let read := fun entry : List UInt8 × List UInt8 =>
    (extractDigestFromRoundKey entry.1 (makeBatchRoundPrefix r)).bind s.getBatchInternal
  have hstart : batchRoundPrefix <+: makeBatchRoundPrefix r := List.prefix_append _ _
  -- What an entry reads as is the batch whose key it is.
  have hread : ∀ entry ∈ found, ∀ b, read entry = some b →
      entry.1 = makeBatchRoundKey r b.digest ∧ held b.digest = some b ∧ b.round = r := by
    intro (k, v) hentry b hb
    obtain ⟨hget, hk⟩ := (hmem k v).mp hentry
    obtain ⟨d, b', hd, rfl⟩ := h.listed hget (hstart.trans hk)
    obtain rfl := makeBatchRoundPrefix_isPrefix.mp hk
    simp only [read, extractDigestFromRoundKey_key, Option.bind_some, h.getBatchInternal, hd] at hb
    obtain rfl := Option.some.inj hb
    rw [h.keyed hd]
    exact ⟨rfl, hd, rfl⟩
  refine ⟨found.filterMap read,
    by simp [LevelDBBatchStore.getBatchesByRound, h.opened, hfound, read], ?_, fun b => ?_⟩
  · rw [List.Nodup, List.pairwise_filterMap]
    refine (List.pairwise_map.mp hnodup).imp_of_mem ?_
    rintro e e' he he' hne b hb b' hb' rfl
    exact hne ((hread e he b hb).1.trans (hread e' he' b hb').1.symm)
  · rw [List.mem_filterMap]
    constructor
    · rintro ⟨entry, hentry, hb⟩
      exact (hread entry hentry b hb).2
    · rintro ⟨hheld, hround⟩
      obtain ⟨v, hv⟩ := h.indexed hheld
      refine ⟨(_, v), (hmem _ v).mpr ⟨hv, makeBatchRoundPrefix_isPrefix.mpr hround⟩, ?_⟩
      simp only [read, extractDigestFromRoundKey_key, Option.bind_some, h.getBatchInternal, hheld]

/-! ## Saving and deleting -/

theorem saveBatch_held (h : s.Represents held) (hb : (held b.digest).isSome) :
    s.saveBatch b = (.ok (), s) := by
  simp [LevelDBBatchStore.saveBatch, h.opened, DB.has_of_open h.working.closed, h.filed.has, hb]

theorem saveBatch_free (h : s.Represents held) (hb : held b.digest = none)
    {held' : Hash → Option Batch}
    (hheld' : ∀ d, held' d = if d = b.digest then some b else held d) :
    (s.saveBatch b).1 = .ok () ∧ (s.saveBatch b).2.Represents held' := by
  obtain ⟨data, hmarshal, hread⟩ := Cramberry.undone b
  have hsave : s.saveBatch b =
      (.ok (), { s with db.data := applyAll s.db.data (s.saveOps b data) }) := by
    simp [LevelDBBatchStore.saveBatch, h.opened, DB.has_of_open h.working.closed, h.filed.has,
      hb, hmarshal, h.working.write]
  have hfiled := h.filed.saved hread (s.get_saveOps_batchKey b data) hheld'
  rw [hsave]
  refine ⟨rfl, ⟨h.opened, ⟨h.working.full, h.working.closed⟩, hfiled.keyed, hfiled.stored,
    hfiled.free, ?_, ?_⟩⟩
  · intro d b' hd
    rw [hheld'] at hd
    rw [s.get_saveOps b data (batchHighestKey_ne_roundKey _ _).symm,
      if_neg (makeBatchKey_ne_roundKey _ _ _).symm]
    split at hd
    · next heq =>
        cases hd
        exact ⟨[], by rw [if_pos (by rw [heq])]⟩
    · next hne =>
        rw [if_neg fun hk => hne (makeBatchRoundKey_inj hk).2]
        exact h.indexed hd
  · intro k v hget hk
    rw [s.get_saveOps b data (fun he => not_isPrefix_batchHighestKey (he ▸ hk)),
      if_neg fun he => not_isPrefix_makeBatchKey _ (he ▸ hk)] at hget
    split at hget
    · next heq => exact ⟨b.digest, b, by rw [hheld', if_pos rfl], heq⟩
    · obtain ⟨d, b', hd, heq⟩ := h.listed hget hk
      refine ⟨d, b', ?_, heq⟩
      rw [hheld', if_neg]
      · exact hd
      · intro he
        rw [he, hb] at hd
        cases hd

/-- The keys a deletion removes are those of the batches of lower rounds, and of their
index entries. -/
theorem mem_deleteOps (h : s.Represents held) {r : UInt64}
    {found : List (List UInt8 × List UInt8)}
    (hfound : ∀ k v, (k, v) ∈ found ↔ s.db.data.get k = some v ∧ batchRoundPrefix <+: k)
    {op : Op} :
    op ∈ found.flatMap (fun entry => toDelete r entry.1) ↔
      ∃ d b, held d = some b ∧ b.round < r ∧
        (op = .delete (makeBatchKey d) ∨ op = .delete (makeBatchRoundKey b.round d)) := by
  rw [List.mem_flatMap]
  constructor
  · intro ⟨(k, v), hentry, hop⟩
    obtain ⟨hget, hk⟩ := (hfound k v).mp hentry
    obtain ⟨d, b, hd, rfl⟩ := h.listed hget hk
    rw [toDelete, parseRoundKey_key] at hop
    dsimp only at hop
    split at hop
    · next hlt => exact ⟨d, b, hd, hlt, by simpa using hop⟩
    · cases hop
  · intro ⟨d, b, hd, hlt, hop⟩
    obtain ⟨v, hv⟩ := h.indexed hd
    refine ⟨(_, v), (hfound _ v).mpr ⟨hv, isPrefix_makeBatchRoundKey _ _⟩, ?_⟩
    rw [toDelete, parseRoundKey_key]
    dsimp only
    rw [if_pos hlt]
    simpa using hop

/-- A deletion deletes these keys, and is nothing else. An empty write batch is not written,
which makes no difference to what is stored. -/
theorem deleteBatchesBefore_eq (h : s.Represents held) (r : UInt64) :
    ∃ batch s', s.deleteBatchesBefore r = (.ok (), s') ∧ s'.closed = s.closed ∧
      s'.db.Working ∧ s'.db.data = applyAll s.db.data batch ∧
      ∀ op, op ∈ batch ↔ ∃ d b, held d = some b ∧ b.round < r ∧
        (op = .delete (makeBatchKey d) ∨ op = .delete (makeBatchRoundKey b.round d)) := by
  obtain ⟨found, hfound, -, hmem⟩ := DB.iterate_of_open h.working.closed batchRoundPrefix
  rw [LevelDBBatchStore.deleteBatchesBefore, if_neg (by simp [h.opened]), hfound]
  dsimp only
  split
  · next hempty =>
      refine ⟨_, s, rfl, rfl, h.working, ?_, fun op => h.mem_deleteOps hmem⟩
      rw [List.isEmpty_iff.mp hempty]
      rfl
  · rw [h.working.write]
    exact ⟨_, _, rfl, rfl, ⟨h.working.full, h.working.closed⟩, rfl,
      fun op => h.mem_deleteOps hmem⟩

theorem deleteBatchesBefore (h : s.Represents held) (r : UInt64)
    {held' : Hash → Option Batch}
    (hheld' : ∀ d b, held' d = some b ↔ held d = some b ∧ ¬ b.round < r) :
    (s.deleteBatchesBefore r).1 = .ok () ∧ (s.deleteBatchesBefore r).2.Represents held' := by
  obtain ⟨batch, s', hs', hclosed, hworking, hdata, hops⟩ := h.deleteBatchesBefore_eq r
  have hnone : ∀ op ∈ batch, op.value = none := by
    intro op hop
    obtain ⟨d, b, -, -, rfl | rfl⟩ := (hops op).mp hop <;> rfl
  have hget : ∀ {k v}, s'.db.data.get k = some v ↔
      s.db.data.get k = some v ∧ ∀ op ∈ batch, op.key ≠ k := by
    intro k v
    rw [hdata]
    exact LevelDB.get_applyAll_of_delete hnone
  -- A batch that stays keeps both of its keys.
  have hbatches : ∀ {d b}, held d = some b →
      ((∀ op ∈ batch, op.key ≠ makeBatchKey d) ↔ ¬ b.round < r) := by
    intro d b hd
    constructor
    · intro hne hlt
      exact hne _ ((hops (.delete (makeBatchKey d))).mpr ⟨d, b, hd, hlt, .inl rfl⟩) rfl
    · intro hle op hop hkey
      obtain ⟨d', b', hd', hlt, rfl | rfl⟩ := (hops op).mp hop
      · obtain rfl := makeBatchKey_inj hkey
        obtain rfl := Option.some.inj (hd.symm.trans hd')
        exact hle hlt
      · exact makeBatchKey_ne_roundKey _ _ _ hkey.symm
  have hrounds : ∀ {d round}, ¬ round < r → ∀ op ∈ batch, op.key ≠ makeBatchRoundKey round d := by
    intro d round hle op hop hkey
    obtain ⟨d', b', hd', hlt, rfl | rfl⟩ := (hops op).mp hop
    · exact makeBatchKey_ne_roundKey _ _ _ hkey
    · exact hle ((makeBatchRoundKey_inj hkey).1 ▸ hlt)
  have hfiled := h.filed.removed hget fun {d b} =>
    (hheld' d b).trans (and_congr_right fun hd => (hbatches hd).symm)
  rw [hs']
  refine ⟨rfl, ⟨hclosed.trans h.opened, hworking, hfiled.keyed, hfiled.stored, hfiled.free,
    ?_, ?_⟩⟩
  · intro d b hd
    obtain ⟨hd, hle⟩ := (hheld' d b).mp hd
    obtain ⟨v, hv⟩ := h.indexed hd
    exact ⟨v, hget.mpr ⟨hv, hrounds hle⟩⟩
  · intro k v hk hstart
    obtain ⟨hold, hne⟩ := hget.mp hk
    obtain ⟨d, b, hd, rfl⟩ := h.listed hold hstart
    refine ⟨d, b, (hheld' d b).mpr ⟨hd, fun hlt => ?_⟩, rfl⟩
    exact hne (.delete (makeBatchRoundKey b.round d))
      ((hops _).mpr ⟨d, b, hd, hlt, .inr rfl⟩) rfl

end Represents

/-! ## Nothing is lost by a save -/

omit [Cramberry Batch] in
theorem hasBatch_eq_true :
    s.hasBatch d = true ↔
      s.closed = false ∧ s.db.closed = false ∧ s.db.data.has (makeBatchKey d) = true := by
  unfold hasBatch LevelDB.DB.has
  cases s.closed <;> cases s.db.closed <;> simp

theorem open_of_getBatch (h : s.getBatch d = .ok b) : s.closed = false ∧ s.db.closed = false := by
  unfold getBatch LevelDB.DB.get at h
  cases hs : s.closed with
  | true => simp [hs] at h
  | false =>
    cases hdb : s.db.closed with
    | true => simp [hs, hdb] at h
    | false => exact ⟨rfl, rfl⟩

theorem getBatch_of_get_eq {s s' : LevelDBBatchStore} (hclosed : s'.closed = s.closed)
    (hget : s'.db.get (makeBatchKey d) = s.db.get (makeBatchKey d)) :
    s'.getBatch d = s.getBatch d := by
  rw [getBatch, getBatch, hclosed, hget]

instance : KeepsBatches LevelDBBatchStore where
  has_save {s d} b h := by
    show (s.saveBatch b).2.hasBatch d = true
    rcases s.saveBatch_cases b with ⟨err, heq⟩ | ⟨heq, -⟩ | ⟨data, -, -, -, heq⟩
    · rw [heq]
      exact h
    · rw [heq]
      exact h
    · rw [heq]
      obtain ⟨hopen, hdb, hhas⟩ := hasBatch_eq_true.mp h
      refine hasBatch_eq_true.mpr ⟨hopen, hdb, ?_⟩
      rw [GoMap.has, s.get_saveOps_batchKey]
      split
      · rfl
      · exact hhas
  get_save {s d b'} b h := by
    change s.getBatch d = .ok b' at h
    show (s.saveBatch b).2.getBatch d = .ok b'
    rcases s.saveBatch_cases b with ⟨err, heq⟩ | ⟨heq, -⟩ | ⟨data, -, -, hfree, heq⟩
    · rw [heq]
      exact h
    · rw [heq]
      exact h
    · rw [heq]
      obtain ⟨hopen, hdb⟩ := open_of_getBatch h
      have hne : d ≠ b.digest := by
        rintro rfl
        unfold getBatch at h
        rw [if_neg (by simp [hopen]), LevelDB.DB.get_of_open hdb] at h
        have hnone : s.db.data.get (makeBatchKey b.digest) = none := by
          rw [GoMap.has] at hfree
          simpa using hfree
        rw [hnone] at h
        cases h
      have hget := s.get_saveOps_batchKey b data d
      rw [if_neg hne] at hget
      rw [← h]
      refine getBatch_of_get_eq rfl ?_
      rw [LevelDB.DB.get, LevelDB.DB.get, hget]

omit [Cramberry Batch] in
theorem reopen_close (hs : s.closed = false) (hdb : s.db.closed = false) :
    s.close.2.reopen = s := by
  obtain ⟨⟨data, full, closed⟩, closed'⟩ := s
  cases hs
  cases hdb
  rfl

instance : PersistsBatches LevelDBBatchStore where
  get_reopen {s d b} h := by
    obtain ⟨hs, hdb⟩ := open_of_getBatch h
    show s.close.2.reopen.getBatch d = .ok b
    rw [reopen_close hs hdb]
    exact h

end LevelDBBatchStore

end DagMempool
