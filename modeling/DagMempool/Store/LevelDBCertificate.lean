import DagMempool.Store.LevelDB

/-!
# The certificate store on disk

Certificates under their digests, and an index with one slot for each round and
validator, which holds the digest of the certificate saved last for them. Listing
and deleting by round go through the index, so a certificate whose slot was taken by
another one is still found by its digest, but no longer listed and never deleted. The
highest round is an entry of its own, which only ever goes up.

`Represents` says what the bytes stand for: the certificates by digest, the slots, and
the highest round.
-/

namespace DagMempool

open LevelDB (DB Op applyAll)

def certPrefix : List UInt8 := ascii ['C', ':']

def certRoundPrefix : List UInt8 := ascii ['C', 'R', ':']

def certHighestKey : List UInt8 :=
  ascii ['C', 'M', ':', 'h', 'i', 'g', 'h', 'e', 's', 't', '_', 'r', 'o', 'u', 'n', 'd']

def makeCertKey (digest : Hash) : List UInt8 := certPrefix ++ digest.bytes

def makeCertRoundPrefix (round : UInt64) : List UInt8 :=
  certRoundPrefix ++ beBytes 8 round.toNat

def makeCertRoundValidatorKey (round : UInt64) (validator : UInt16) : List UInt8 :=
  certRoundPrefix ++ (beBytes 8 round.toNat ++ beBytes 2 validator.toNat)

/-- A key that is too short is taken for one of round `0`. -/
def parseRoundFromCertKey (key : List UInt8) : UInt64 :=
  if key.length < certRoundPrefix.length + 8 then 0
  else readUint64 (key.drop certRoundPrefix.length)

structure LevelDBCertificateStore where
  db : DB
  closed : Bool

namespace LevelDBCertificateStore

/-- `NewLevelDBCertificateStore`, of a directory with nothing in it. -/
def new : LevelDBCertificateStore := { db := .openFile, closed := false }

def getHighestRound (s : LevelDBCertificateStore) : UInt64 :=
  match s.db.get certHighestKey with
  | .error _ => 0
  | .ok data => if data.length < 8 then 0 else readUint64 data

/-- The write batch of `SaveCertificate`. -/
def saveOps (s : LevelDBCertificateStore) (c : Certificate) (data : List UInt8) : List Op :=
  [.put (makeCertKey c.digest) data,
    .put (makeCertRoundValidatorKey c.round c.author) c.digest.bytes] ++
    if s.getHighestRound < c.round then [.put certHighestKey (beBytes 8 c.round.toNat)] else []

/-- The digest in an index entry, where the entry has the length of one. -/
def readDigest (value : List UInt8) : Option Hash :=
  if value.length ≠ 32 then none else some (Hash.copyFrom value)

/-- The keys to delete for an index entry: that of its certificate, and its own. -/
def toDelete (round : UInt64) (entry : List UInt8 × List UInt8) : List Op :=
  if parseRoundFromCertKey entry.1 < round then
    match readDigest entry.2 with
    | none => []
    | some digest => [.delete (makeCertKey digest), .delete entry.1]
  else []

def hasCertificate (s : LevelDBCertificateStore) (digest : Hash) : Bool :=
  if s.closed then false
  else match s.db.has (makeCertKey digest) with
    | .error _ => false
    | .ok has => has

def deleteCertificatesBefore (s : LevelDBCertificateStore) (round : UInt64) :
    Except GoError Unit × LevelDBCertificateStore :=
  if s.closed then (.error .notRunning, s)
  else match s.db.iterate certRoundPrefix with
    | .error err => (.error (.wrap "iteration error" err.text), s)
    | .ok found =>
      let batch := found.flatMap (toDelete round)
      if batch.isEmpty then (.ok (), s)
      else
        let written := s.db.write batch
        match written.1 with
        | .error err =>
          (.error (.wrap "failed to delete certificates" err.text),
            { s with db := written.2 })
        | .ok () => (.ok (), { s with db := written.2 })

def close (s : LevelDBCertificateStore) : Except GoError Unit × LevelDBCertificateStore :=
  if s.closed then (.ok (), s) else (.ok (), { db := s.db.close, closed := true })

instance : Closer LevelDBCertificateStore where
  close := close

/-- `NewLevelDBCertificateStore`, where there was one before. -/
def reopen (s : LevelDBCertificateStore) : LevelDBCertificateStore :=
  { db := s.db.reopen, closed := false }

instance : Reopens LevelDBCertificateStore where
  reopen := reopen

/-- Unlike the other calls it does not ask whether the store is closed. -/
def highestRound (s : LevelDBCertificateStore) : UInt64 := s.getHighestRound

section

variable [Cramberry Certificate]

def saveCertificate (s : LevelDBCertificateStore) (c : Certificate) :
    Except GoError Unit × LevelDBCertificateStore :=
  if s.closed then (.error .notRunning, s)
  else match s.db.has (makeCertKey c.digest) with
    | .error err => (.error (.wrap "failed to check certificate existence" err.text), s)
    | .ok true => (.ok (), s)
    | .ok false => match Cramberry.marshal c with
      | .error err => (.error (.wrap "failed to encode certificate" err.text), s)
      | .ok data =>
        let written := s.db.write (s.saveOps c data)
        match written.1 with
        | .error err =>
          (.error (.wrap "failed to write certificate" err.text), { s with db := written.2 })
        | .ok () => (.ok (), { s with db := written.2 })

def getCertificate (s : LevelDBCertificateStore) (digest : Hash) :
    Except GoError Certificate :=
  if s.closed then .error .notRunning
  else match s.db.get (makeCertKey digest) with
    | .error .notFound => .error .certificateNotFound
    | .error err => .error (.wrap "failed to get certificate" err.text)
    | .ok data => match Cramberry.unmarshal data with
      | .error err => .error (.wrap "failed to decode certificate" err.text)
      | .ok cert => .ok cert

def getCertificateInternal (s : LevelDBCertificateStore) (digest : Hash) :
    Except GoError Certificate :=
  match s.db.get (makeCertKey digest) with
  | .error .notFound => .error .certificateNotFound
  | .error err => .error (.other err.text)
  | .ok data => Cramberry.unmarshal data

/-- An index entry whose digest or certificate cannot be read is passed over. -/
def getCertificatesByRound (s : LevelDBCertificateStore) (round : UInt64) :
    Except GoError (List Certificate) :=
  if s.closed then .error .notRunning
  else match s.db.iterate (makeCertRoundPrefix round) with
    | .error err => .error (.wrap "iteration error" err.text)
    | .ok found => .ok (found.filterMap fun entry =>
      (readDigest entry.2).bind fun digest => (s.getCertificateInternal digest).toOption)

def getCertificateForValidator (s : LevelDBCertificateStore) (round : UInt64)
    (validator : UInt16) : Except GoError Certificate :=
  if s.closed then .error .notRunning
  else match s.db.get (makeCertRoundValidatorKey round validator) with
    | .error .notFound => .error .certificateNotFound
    | .error err => .error (.wrap "failed to get certificate index" err.text)
    | .ok value => match readDigest value with
      | none => .error .certificateNotFound
      | some digest => s.getCertificateInternal digest

instance : CertificateStore LevelDBCertificateStore where
  saveCertificate := saveCertificate
  getCertificate := getCertificate
  hasCertificate := hasCertificate
  getCertificatesByRound := getCertificatesByRound
  getCertificateForValidator := getCertificateForValidator
  deleteCertificatesBefore := deleteCertificatesBefore
  highestRound := highestRound

end

end LevelDBCertificateStore

/-! ## Keys -/

theorem makeCertKey_inj {d d' : Hash} (h : makeCertKey d = makeCertKey d') : d = d' :=
  Hash.bytes_inj (List.append_cancel_left h)

theorem makeCertRoundValidatorKey_inj {r r' : UInt64} {a a' : UInt16}
    (h : makeCertRoundValidatorKey r a = makeCertRoundValidatorKey r' a') :
    r = r' ∧ a = a' := by
  obtain ⟨hround, hauthor⟩ := List.append_inj (List.append_cancel_left h) (by simp)
  exact ⟨beBytes_uint64_inj hround,
    UInt16.toNat_inj.mp (beBytes_inj a.toNat_lt a'.toNat_lt hauthor)⟩

variable (d : Hash) (r : UInt64) (a : UInt16) {c : Certificate}

theorem isPrefix_makeCertRoundValidatorKey :
    certRoundPrefix <+: makeCertRoundValidatorKey r a :=
  List.prefix_append _ _

/-- The entries for certificates and the highest round are no part of the index. -/
theorem not_isPrefix_makeCertKey : ¬ certRoundPrefix <+: makeCertKey d := by
  intro h
  simp [certRoundPrefix, makeCertKey, certPrefix, ascii] at h

theorem not_isPrefix_certHighestKey : ¬ certRoundPrefix <+: certHighestKey := by decide

theorem certHighestKey_ne : certHighestKey ≠ makeCertKey d := by
  intro h
  have hlen := congrArg List.length h
  simp [makeCertKey, certHighestKey, certPrefix, ascii] at hlen

theorem certHighestKey_ne_slotKey : certHighestKey ≠ makeCertRoundValidatorKey r a := fun h =>
  not_isPrefix_certHighestKey (h ▸ isPrefix_makeCertRoundValidatorKey r a)

theorem makeCertKey_ne_slotKey : makeCertKey d ≠ makeCertRoundValidatorKey r a := fun h =>
  not_isPrefix_makeCertKey d (h ▸ isPrefix_makeCertRoundValidatorKey r a)

theorem makeCertRoundPrefix_isPrefix {r r' : UInt64} {a : UInt16} :
    makeCertRoundPrefix r <+: makeCertRoundValidatorKey r' a ↔ r' = r := by
  rw [makeCertRoundPrefix, makeCertRoundValidatorKey, List.prefix_append_right_inj]
  constructor
  · intro h
    exact (beBytes_uint64_inj (eq_of_isPrefix_append (by simp) h)).symm
  · intro h
    subst h
    exact List.prefix_append _ _

theorem parseRoundFromCertKey_key : parseRoundFromCertKey (makeCertRoundValidatorKey r a) = r := by
  have hdrop : (makeCertRoundValidatorKey r a).drop certRoundPrefix.length =
      beBytes 8 r.toNat ++ beBytes 2 a.toNat := List.drop_left' rfl
  rw [parseRoundFromCertKey, if_neg (by simp [makeCertRoundValidatorKey]), hdrop,
    readUint64_beBytes]

/-! ## What the bytes stand for -/

namespace LevelDBCertificateStore

@[simp] theorem readDigest_bytes : readDigest d.bytes = some d := by
  simp [readDigest]

theorem get_saveOps (s : LevelDBCertificateStore) (c : Certificate) (data : List UInt8)
    {k : List UInt8} (hk : k ≠ certHighestKey) :
    (applyAll s.db.data (s.saveOps c data)).get k =
      if k = makeCertKey c.digest then some data
      else if k = makeCertRoundValidatorKey c.round c.author then some c.digest.bytes
      else s.db.data.get k := by
  refine LevelDB.get_applyAll_puts (makeCertKey_ne_slotKey _ _ _) fun op hop => ?_
  split at hop
  · rw [List.mem_singleton.mp hop]
    exact hk.symm
  · cases hop

theorem get_saveOps_certKey (s : LevelDBCertificateStore) (c : Certificate) (data : List UInt8)
    (d : Hash) :
    (applyAll s.db.data (s.saveOps c data)).get (makeCertKey d) =
      if d = c.digest then some data else s.db.data.get (makeCertKey d) := by
  rw [s.get_saveOps c data (certHighestKey_ne d).symm, if_neg (makeCertKey_ne_slotKey _ _ _)]
  by_cases hd : d = c.digest
  · rw [if_pos hd, if_pos (by rw [hd])]
  · rw [if_neg hd, if_neg fun he => hd (makeCertKey_inj he)]

variable [Cramberry Certificate]

/-- The store is open and holds these certificates, in these slots, with this highest
round. -/
structure Represents (s : LevelDBCertificateStore) (held : Hash → Option Certificate)
    (slot : UInt64 → UInt16 → Option Hash) (highest : UInt64) : Prop where
  opened : s.closed = false
  working : s.db.Working
  keyed : ∀ {d c}, held d = some c → c.digest = d
  stored : ∀ {d c}, held d = some c →
    ∃ data, s.db.data.get (makeCertKey d) = some data ∧ Cramberry.unmarshal data = .ok c
  free : ∀ {d}, held d = none → s.db.data.get (makeCertKey d) = none
  slots : ∀ r a, s.db.data.get (makeCertRoundValidatorKey r a) = (slot r a).map Hash.bytes
  listed : ∀ {k v}, s.db.data.get k = some v → certRoundPrefix <+: k →
    ∃ r a, k = makeCertRoundValidatorKey r a
  filled : ∀ {r a d}, slot r a = some d → ∃ c, held d = some c ∧ c.round = r ∧ c.author = a
  highest : s.getHighestRound = highest

variable {s : LevelDBCertificateStore} {held : Hash → Option Certificate}
variable {slot : UInt64 → UInt16 → Option Hash} {highest : UInt64}

theorem represents_new : new.Represents (fun _ => none) (fun _ _ => none) 0 where
  opened := rfl
  working := DB.working_openFile
  keyed h := absurd h (by simp)
  stored h := absurd h (by simp)
  free _ := GoMap.get_empty _
  slots _ _ := GoMap.get_empty _
  listed h := absurd h GoMap.get_empty_ne
  filled h := absurd h (by simp)
  highest := rfl

omit [Cramberry Certificate] in
theorem getHighestRound_of_open (hopen : s.db.closed = false) :
    s.getHighestRound = match s.db.data.get certHighestKey with
      | none => 0
      | some data => if data.length < 8 then 0 else readUint64 data := by
  rw [getHighestRound, DB.get_of_open hopen]
  cases s.db.data.get certHighestKey <;> rfl

omit [Cramberry Certificate] in
theorem getHighestRound_saveOps (hopen : s.db.closed = false) (c : Certificate)
    (data : List UInt8) :
    getHighestRound { s with db.data := applyAll s.db.data (s.saveOps c data) } =
      if s.getHighestRound < c.round then c.round else s.getHighestRound := by
  have hfirst : ∀ op ∈ [Op.put (makeCertKey c.digest) data,
      .put (makeCertRoundValidatorKey c.round c.author) c.digest.bytes],
      op.key ≠ certHighestKey := by
    intro op hop
    simp only [List.mem_cons, List.not_mem_nil, or_false] at hop
    rcases hop with rfl | rfl
    · exact (certHighestKey_ne _).symm
    · exact (certHighestKey_ne_slotKey _ _).symm
  rw [getHighestRound_of_open (s := { s with db.data := applyAll s.db.data (s.saveOps c data) })
    hopen]
  by_cases hlt : s.getHighestRound < c.round
  · have hget : (applyAll s.db.data (s.saveOps c data)).get certHighestKey =
        some (beBytes 8 c.round.toNat) := by
      refine LevelDB.get_applyAll_of_mem
        ⟨.put certHighestKey (beBytes 8 c.round.toNat), by simp [saveOps, hlt], rfl⟩
        fun op hop hkey => ?_
      rw [saveOps, if_pos hlt] at hop
      rcases List.mem_append.mp hop with hop | hop
      · exact absurd hkey (hfirst op hop)
      · rw [List.mem_singleton.mp hop]
        rfl
    rw [hget, if_pos hlt]
    simp
  · have hget : (applyAll s.db.data (s.saveOps c data)).get certHighestKey =
        s.db.data.get certHighestKey := by
      refine LevelDB.get_applyAll_of_ne fun op hop => ?_
      rw [saveOps, if_neg hlt, List.append_nil] at hop
      exact hfirst op hop
    rw [hget, if_neg hlt, getHighestRound_of_open hopen]

namespace Represents

theorem filed (h : s.Represents held slot highest) :
    Filed Certificate.digest makeCertKey s.db.data held :=
  ⟨h.keyed, h.stored, h.free⟩

theorem hasCertificate (h : s.Represents held slot highest) (d : Hash) :
    s.hasCertificate d = (held d).isSome := by
  simp [LevelDBCertificateStore.hasCertificate, h.opened, DB.has_of_open h.working.closed,
    h.filed.has]

theorem getCertificate (h : s.Represents held slot highest) (d : Hash) :
    s.getCertificate d = match held d with
      | none => .error .certificateNotFound
      | some c => .ok c := by
  simp only [LevelDBCertificateStore.getCertificate, h.opened, DB.get_of_open h.working.closed]
  cases hd : held d with
  | none => simp [h.free hd]
  | some c =>
    obtain ⟨data, hdata, hread⟩ := h.stored hd
    simp [hdata, hread]

theorem getCertificateInternal (h : s.Represents held slot highest) (d : Hash) :
    s.getCertificateInternal d = match held d with
      | none => .error .certificateNotFound
      | some c => .ok c := by
  simp only [LevelDBCertificateStore.getCertificateInternal, DB.get_of_open h.working.closed]
  cases hd : held d with
  | none => simp [h.free hd]
  | some c =>
    obtain ⟨data, hdata, hread⟩ := h.stored hd
    simp [hdata, hread]

theorem getCertificateForValidator (h : s.Represents held slot highest) (r : UInt64)
    (a : UInt16) :
    s.getCertificateForValidator r a = match (slot r a).bind held with
      | none => .error .certificateNotFound
      | some c => .ok c := by
  simp only [LevelDBCertificateStore.getCertificateForValidator, h.opened,
    DB.get_of_open h.working.closed, h.slots]
  cases hslot : slot r a with
  | none => rfl
  | some d =>
    simp only [Option.map_some, readDigest_bytes, Option.bind_some]
    exact h.getCertificateInternal d

/-- The certificates listed for a round are those in its slots, with one for each author
at most. -/
theorem getCertificatesByRound (h : s.Represents held slot highest) (r : UInt64) :
    ∃ cs, s.getCertificatesByRound r = .ok cs ∧ (cs.map Certificate.author).Nodup ∧
      ∀ c, c ∈ cs ↔ held c.digest = some c ∧ slot r c.author = some c.digest := by
  obtain ⟨found, hfound, hnodup, hmem⟩ :=
    DB.iterate_of_open h.working.closed (makeCertRoundPrefix r)
  let read := fun entry : List UInt8 × List UInt8 =>
    (readDigest entry.2).bind fun digest => (s.getCertificateInternal digest).toOption
  have hstart : certRoundPrefix <+: makeCertRoundPrefix r := List.prefix_append _ _
  -- What an entry reads as is the certificate whose slot it is.
  have hread : ∀ entry ∈ found, ∀ c, read entry = some c →
      entry.1 = makeCertRoundValidatorKey r c.author ∧ held c.digest = some c ∧
        slot r c.author = some c.digest := by
    intro (k, v) hentry c hc
    obtain ⟨hget, hk⟩ := (hmem k v).mp hentry
    obtain ⟨r', a, rfl⟩ := h.listed hget (hstart.trans hk)
    obtain rfl := makeCertRoundPrefix_isPrefix.mp hk
    rw [h.slots] at hget
    obtain ⟨d, hd, rfl⟩ := Option.map_eq_some_iff.mp hget
    obtain ⟨c', hheld, -, hauthor⟩ := h.filled hd
    simp only [read, readDigest_bytes, Option.bind_some, h.getCertificateInternal, hheld] at hc
    obtain rfl : c' = c := Option.some.inj hc
    rw [h.keyed hheld, hauthor]
    exact ⟨rfl, hheld, hd⟩
  refine ⟨found.filterMap read,
    by simp [LevelDBCertificateStore.getCertificatesByRound, h.opened, hfound, read], ?_, ?_⟩
  · rw [List.Nodup, List.pairwise_map, List.pairwise_filterMap]
    refine (List.pairwise_map.mp hnodup).imp_of_mem ?_
    intro e e' he he' hne c hc c' hc' hauthor
    apply hne
    rw [(hread e he c hc).1, (hread e' he' c' hc').1, hauthor]
  · intro c
    rw [List.mem_filterMap]
    constructor
    · intro ⟨entry, hentry, hc⟩
      exact (hread entry hentry c hc).2
    · intro ⟨hheld, hslot⟩
      refine ⟨(makeCertRoundValidatorKey r c.author, c.digest.bytes), (hmem _ _).mpr ⟨?_, ?_⟩, ?_⟩
      · rw [h.slots, hslot, Option.map_some]
      · exact makeCertRoundPrefix_isPrefix.mpr rfl
      · simp [read, h.getCertificateInternal, hheld, Except.toOption]

/-! ## Saving and deleting -/

theorem saveCertificate_held (h : s.Represents held slot highest) (hc : (held c.digest).isSome) :
    s.saveCertificate c = (.ok (), s) := by
  simp [LevelDBCertificateStore.saveCertificate, h.opened, DB.has_of_open h.working.closed,
    h.filed.has, hc]

/-- A certificate whose digest is free is stored and takes its slot, from whatever had
it. -/
theorem saveCertificate_free (h : s.Represents held slot highest) (hc : held c.digest = none)
    {held' : Hash → Option Certificate} {slot' : UInt64 → UInt16 → Option Hash}
    (hheld' : ∀ d, held' d = if d = c.digest then some c else held d)
    (hslot' : ∀ r a, slot' r a = if r = c.round ∧ a = c.author then some c.digest else slot r a) :
    (s.saveCertificate c).1 = .ok () ∧ (s.saveCertificate c).2.Represents held' slot'
      (if highest < c.round then c.round else highest) := by
  obtain ⟨data, hmarshal, hread⟩ := Cramberry.undone c
  have hsave : s.saveCertificate c =
      (.ok (), { s with db.data := applyAll s.db.data (s.saveOps c data) }) := by
    simp [LevelDBCertificateStore.saveCertificate, h.opened, DB.has_of_open h.working.closed,
      h.filed.has, hc, hmarshal, h.working.write]
  have hfiled := h.filed.saved hread (s.get_saveOps_certKey c data) hheld'
  have hne : ∀ {d c'}, held d = some c' → d ≠ c.digest := by
    intro d c' hd he
    rw [he, hc] at hd
    cases hd
  rw [hsave]
  refine ⟨rfl, ⟨h.opened, ⟨h.working.full, h.working.closed⟩, hfiled.keyed, hfiled.stored,
    hfiled.free, ?_, ?_, ?_, ?_⟩⟩
  · intro r a
    rw [s.get_saveOps c data (certHighestKey_ne_slotKey _ _).symm,
      if_neg (makeCertKey_ne_slotKey _ _ _).symm, hslot']
    by_cases hra : r = c.round ∧ a = c.author
    · rw [if_pos hra, if_pos (by rw [hra.1, hra.2]), Option.map_some]
    · rw [if_neg hra, if_neg fun he => hra (makeCertRoundValidatorKey_inj he)]
      exact h.slots r a
  · intro k v hget hk
    rw [s.get_saveOps c data (fun he => not_isPrefix_certHighestKey (he ▸ hk)),
      if_neg fun he => not_isPrefix_makeCertKey _ (he ▸ hk)] at hget
    split at hget
    · next heq => exact ⟨_, _, heq⟩
    · exact h.listed hget hk
  · intro r a d hd
    rw [hslot'] at hd
    split at hd
    · next hra =>
        obtain rfl := Option.some.inj hd
        exact ⟨c, by rw [hheld', if_pos rfl], hra.1.symm, hra.2.symm⟩
    · obtain ⟨c', hc', hround, hauthor⟩ := h.filled hd
      exact ⟨c', by rw [hheld', if_neg (hne hc')]; exact hc', hround, hauthor⟩
  · rw [getHighestRound_saveOps h.working.closed, h.highest]

/-- The keys a deletion removes are those of the slots of lower rounds, and of the
certificates in them. -/
theorem mem_deleteOps (h : s.Represents held slot highest) {round : UInt64}
    {found : List (List UInt8 × List UInt8)}
    (hfound : ∀ k v, (k, v) ∈ found ↔ s.db.data.get k = some v ∧ certRoundPrefix <+: k)
    {op : Op} :
    op ∈ found.flatMap (toDelete round) ↔
      ∃ r a d, slot r a = some d ∧ r < round ∧
        (op = .delete (makeCertKey d) ∨ op = .delete (makeCertRoundValidatorKey r a)) := by
  rw [List.mem_flatMap]
  constructor
  · intro ⟨(k, v), hentry, hop⟩
    obtain ⟨hget, hk⟩ := (hfound k v).mp hentry
    obtain ⟨r, a, rfl⟩ := h.listed hget hk
    rw [h.slots] at hget
    obtain ⟨d, hd, rfl⟩ := Option.map_eq_some_iff.mp hget
    rw [toDelete, parseRoundFromCertKey_key] at hop
    split at hop
    · next hlt =>
        exact ⟨r, a, d, hd, hlt, by simpa using hop⟩
    · cases hop
  · intro ⟨r, a, d, hd, hlt, hop⟩
    refine ⟨(makeCertRoundValidatorKey r a, d.bytes), (hfound _ _).mpr ⟨?_, ?_⟩, ?_⟩
    · rw [h.slots, hd, Option.map_some]
    · exact isPrefix_makeCertRoundValidatorKey _ _
    · rw [toDelete, parseRoundFromCertKey_key, if_pos hlt, readDigest_bytes]
      simpa using hop

theorem deleteCertificatesBefore_eq (h : s.Represents held slot highest) (round : UInt64) :
    ∃ batch s', s.deleteCertificatesBefore round = (.ok (), s') ∧ s'.closed = s.closed ∧
      s'.db.Working ∧ s'.db.data = applyAll s.db.data batch ∧
      ∀ op, op ∈ batch ↔ ∃ r a d, slot r a = some d ∧ r < round ∧
        (op = .delete (makeCertKey d) ∨ op = .delete (makeCertRoundValidatorKey r a)) := by
  obtain ⟨found, hfound, -, hmem⟩ := DB.iterate_of_open h.working.closed certRoundPrefix
  rw [LevelDBCertificateStore.deleteCertificatesBefore, if_neg (by simp [h.opened]), hfound]
  dsimp only
  split
  · next hempty =>
      refine ⟨_, s, rfl, rfl, h.working, ?_, fun op => h.mem_deleteOps hmem⟩
      rw [List.isEmpty_iff.mp hempty]
      rfl
  · rw [h.working.write]
    exact ⟨_, _, rfl, rfl, ⟨h.working.full, h.working.closed⟩, rfl,
      fun op => h.mem_deleteOps hmem⟩

/-- Deleting empties the slots of lower rounds, and removes the certificates that were in
them. -/
theorem deleteCertificatesBefore (h : s.Represents held slot highest) (round : UInt64)
    {held' : Hash → Option Certificate} {slot' : UInt64 → UInt16 → Option Hash}
    (hheld' : ∀ d c, held' d = some c ↔
      held d = some c ∧ ¬ (c.round < round ∧ slot c.round c.author = some d))
    (hslot' : ∀ r a d, slot' r a = some d ↔ slot r a = some d ∧ ¬ r < round) :
    (s.deleteCertificatesBefore round).1 = .ok () ∧
      (s.deleteCertificatesBefore round).2.Represents held' slot' highest := by
  obtain ⟨batch, s', hs', hclosed, hworking, hdata, hops⟩ := h.deleteCertificatesBefore_eq round
  have hnone : ∀ op ∈ batch, op.value = none := by
    intro op hop
    obtain ⟨r, a, d, -, -, rfl | rfl⟩ := (hops op).mp hop <;> rfl
  have hget : ∀ {k v}, s'.db.data.get k = some v ↔
      s.db.data.get k = some v ∧ ∀ op ∈ batch, op.key ≠ k := by
    intro k v
    rw [hdata]
    exact LevelDB.get_applyAll_of_delete hnone
  -- The certificate of a slot that is emptied is the one deleted with it.
  have hcert : ∀ {d c}, held d = some c →
      ((∀ op ∈ batch, op.key ≠ makeCertKey d) ↔
        ¬ (c.round < round ∧ slot c.round c.author = some d)) := by
    intro d c hd
    constructor
    · intro hne ⟨hlt, hslot⟩
      exact hne _ ((hops (.delete (makeCertKey d))).mpr ⟨_, _, d, hslot, hlt, .inl rfl⟩) rfl
    · intro hkeep op hop hkey
      obtain ⟨r, a, d', hslot, hlt, rfl | rfl⟩ := (hops op).mp hop
      · obtain rfl := makeCertKey_inj hkey
        obtain ⟨c', hc', rfl, rfl⟩ := h.filled hslot
        obtain rfl := Option.some.inj (hd.symm.trans hc')
        exact hkeep ⟨hlt, hslot⟩
      · exact makeCertKey_ne_slotKey _ _ _ hkey.symm
  have hslots : ∀ {r a d}, slot r a = some d →
      ((∀ op ∈ batch, op.key ≠ makeCertRoundValidatorKey r a) ↔ ¬ r < round) := by
    intro r a d hd
    constructor
    · intro hne hlt
      exact hne _ ((hops (.delete (makeCertRoundValidatorKey r a))).mpr
        ⟨r, a, d, hd, hlt, .inr rfl⟩) rfl
    · intro hkeep op hop hkey
      obtain ⟨r', a', d', -, hlt, rfl | rfl⟩ := (hops op).mp hop
      · exact makeCertKey_ne_slotKey _ _ _ hkey
      · exact hkeep ((makeCertRoundValidatorKey_inj hkey).1 ▸ hlt)
  have hfiled := h.filed.removed hget fun {d c} =>
    (hheld' d c).trans (and_congr_right fun hd => (hcert hd).symm)
  rw [hs']
  refine ⟨rfl, ⟨hclosed.trans h.opened, hworking, hfiled.keyed, hfiled.stored, hfiled.free,
    ?_, ?_, ?_, ?_⟩⟩
  · intro r a
    cases hslot : slot' r a with
    | some d =>
      obtain ⟨hold, hle⟩ := (hslot' r a d).mp hslot
      rw [Option.map_some, hget, h.slots, hold, Option.map_some]
      exact ⟨rfl, (hslots hold).mpr hle⟩
    | none =>
      rw [Option.map_none]
      cases hk : s'.db.data.get (makeCertRoundValidatorKey r a) with
      | none => rfl
      | some v =>
        obtain ⟨hold, hne⟩ := hget.mp hk
        rw [h.slots] at hold
        obtain ⟨d, hd, -⟩ := Option.map_eq_some_iff.mp hold
        rw [(hslot' r a d).mpr ⟨hd, (hslots hd).mp hne⟩] at hslot
        cases hslot
  · intro k v hk hstart
    exact h.listed (hget.mp hk).1 hstart
  · intro r a d hd
    obtain ⟨hold, hle⟩ := (hslot' r a d).mp hd
    obtain ⟨c, hc, rfl, rfl⟩ := h.filled hold
    exact ⟨c, (hheld' d c).mpr ⟨hc, fun hgone => hle hgone.1⟩, rfl, rfl⟩
  · have hhigh : s'.db.data.get certHighestKey = s.db.data.get certHighestKey := by
      rw [hdata]
      refine LevelDB.get_applyAll_of_ne fun op hop hkey => ?_
      obtain ⟨r, a, d, -, -, rfl | rfl⟩ := (hops op).mp hop
      · exact certHighestKey_ne _ hkey.symm
      · exact certHighestKey_ne_slotKey _ _ hkey.symm
    rw [getHighestRound_of_open hworking.closed, hhigh,
      ← getHighestRound_of_open h.working.closed, h.highest]

end Represents

/-! ## Counting a round -/

/-- The store is open, and its bytes stand for something. -/
def Sound (s : LevelDBCertificateStore) : Prop :=
  ∃ held slot highest, s.Represents held slot highest

theorem sound_new : new.Sound := ⟨_, _, _, represents_new⟩

namespace Represents

theorem mem_authors (h : s.Represents held slot highest) {r : UInt64} {a : UInt16} :
    a ∈ (listedCertificates s r).map Certificate.author ↔ (slot r a).isSome := by
  obtain ⟨cs, hcs, -, hmem⟩ := h.getCertificatesByRound r
  rw [listedCertificates_of_ok hcs, List.mem_map, Option.isSome_iff_exists]
  constructor
  · rintro ⟨c, hc, ha⟩
    exact ⟨c.digest, ha ▸ ((hmem c).mp hc).2⟩
  · rintro ⟨d, hd⟩
    obtain ⟨c, hc, -, ha⟩ := h.filled hd
    obtain rfl := h.keyed hc
    exact ⟨c, (hmem c).mpr ⟨hc, ha ▸ hd⟩, ha⟩

/-- What a store stands for after a save. -/
theorem save (h : s.Represents held slot highest) (c : Certificate) :
    (s.saveCertificate c).1 = .ok () ∧ ∃ held' slot' highest',
      (s.saveCertificate c).2.Represents held' slot' highest' ∧
      (∀ d c', held' d = some c' ↔
        held d = some c' ∨ held c.digest = none ∧ d = c.digest ∧ c' = c) ∧
      ∀ r a, (slot' r a).isSome ↔
        (slot r a).isSome ∨ held c.digest = none ∧ r = c.round ∧ a = c.author := by
  cases hc : held c.digest with
  | some c' =>
    rw [h.saveCertificate_held (by simp [hc])]
    exact ⟨rfl, held, slot, highest, h, by simp, by simp⟩
  | none =>
    obtain ⟨hok, hrep⟩ := h.saveCertificate_free hc (fun _ => rfl) fun _ _ => rfl
    refine ⟨hok, _, _, _, hrep, fun d c' => ?_, fun r a => ?_⟩
    · split
      · next hd => simp [hd, hc, eq_comm]
      · next hd => simp [hd]
    · split
      · next hra => simp [hra]
      · next hra => simp [hra]

theorem deleted (h : s.Represents held slot highest) (round : UInt64) :
    ∃ held', (s.deleteCertificatesBefore round).2.Represents held'
        (fun r a => if r < round then none else slot r a) highest ∧
      ∀ d c, held' d = some c → held d = some c := by
  have hheld : ∀ d c, ((held d).filter fun c =>
      decide (¬ (c.round < round ∧ slot c.round c.author = some d))) = some c ↔
        held d = some c ∧ ¬ (c.round < round ∧ slot c.round c.author = some d) := by
    intro d c
    rw [Option.filter_eq_some_iff, decide_eq_true_iff]
  refine ⟨_, (h.deleteCertificatesBefore round hheld fun r a d => ?_).2,
    fun d c hc => ((hheld d c).mp hc).1⟩
  by_cases hlt : r < round <;> simp [hlt]

end Represents

/-- A round is listed by authors. -/
instance : TalliesRounds LevelDBCertificateStore where
  Key := UInt16
  key := Certificate.author
  sound := Sound
  answers r := by
    intro ⟨_, _, _, h⟩
    obtain ⟨cs, hcs, -, -⟩ := h.getCertificatesByRound r
    exact ⟨cs, hcs⟩
  nodup {s} r := by
    intro ⟨_, _, _, h⟩
    obtain ⟨cs, hcs, hnodup, -⟩ := h.getCertificatesByRound r
    rw [listedCertificates_of_ok hcs]
    exact hnodup
  stored {s r c} := by
    intro ⟨held, slot, _, h⟩ hc
    obtain ⟨cs, hcs, -, hmem⟩ := h.getCertificatesByRound r
    rw [listedCertificates_of_ok hcs] at hc
    obtain ⟨hheld, hslot⟩ := (hmem c).mp hc
    obtain ⟨c', hc', hround, -⟩ := h.filled hslot
    obtain rfl := Option.some.inj (hheld.symm.trans hc')
    refine ⟨?_, hround⟩
    change s.getCertificate c.digest = .ok c
    rw [h.getCertificate, hheld]
  has_get {s d} := by
    intro ⟨held, slot, highest, h⟩ hhas
    have hhas : s.hasCertificate d = true := hhas
    rw [h.hasCertificate, Option.isSome_iff_exists] at hhas
    obtain ⟨c, hc⟩ := hhas
    refine ⟨c, ?_, h.keyed hc⟩
    change s.getCertificate d = .ok c
    rw [h.getCertificate, hc]
  save_ok {s} c := by
    rintro ⟨_, _, _, h⟩
    exact (h.save c).1
  sound_save {s} c := by
    rintro ⟨_, _, _, h⟩
    obtain ⟨-, held', slot', highest', h', -⟩ := h.save c
    exact ⟨held', slot', highest', h'⟩
  has_save {s c d} := by
    rintro ⟨held, _, _, h⟩
    change (s.saveCertificate c).2.hasCertificate d = true ↔
      s.hasCertificate d = true ∨ d = c.digest
    obtain ⟨-, _, _, _, h', hheld, -⟩ := h.save c
    rw [h'.hasCertificate, h.hasCertificate, Option.isSome_iff_exists, Option.isSome_iff_exists]
    simp only [hheld, exists_or]
    refine ⟨fun hd => hd.imp_right fun ⟨_, _, hd, _⟩ => hd, ?_⟩
    rintro (hold | rfl)
    · exact .inl hold
    · cases held c.digest with
      | none => exact .inr ⟨c, rfl, rfl, rfl⟩
      | some c' => exact .inl ⟨c', rfl⟩
  mem_save {s r c a} := by
    rintro ⟨held, _, _, h⟩
    change a ∈ (listedCertificates (s.saveCertificate c).2 r).map Certificate.author ↔
      a ∈ (listedCertificates s r).map Certificate.author ∨
        s.hasCertificate c.digest = false ∧ c.round = r ∧ a = c.author
    obtain ⟨-, _, _, _, h', -, hslot⟩ := h.save c
    rw [h'.mem_authors, h.mem_authors, h.hasCertificate, hslot, Option.isSome_eq_false_iff,
      Option.isNone_iff_eq_none, eq_comm (a := c.round)]
  sound_delete {s} r := by
    intro ⟨held, slot, highest, h⟩
    obtain ⟨held', h', -⟩ := h.deleted r
    exact ⟨held', _, highest, h'⟩
  mem_delete {s r r' a} := by
    intro ⟨held, slot, highest, h⟩ hle
    change a ∈ (listedCertificates (s.deleteCertificatesBefore r).2 r').map Certificate.author ↔
      a ∈ (listedCertificates s r').map Certificate.author
    obtain ⟨held', h', -⟩ := h.deleted r
    rw [h'.mem_authors, h.mem_authors, if_neg (UInt64.not_lt.mpr hle)]

/-- An open store in order takes everything. -/
instance : AcceptingCertificateStore LevelDBCertificateStore where
  accepts := Sound
  save_ok c h := TalliesRounds.save_ok (S := LevelDBCertificateStore) c h
  accepts_save c h := TalliesRounds.sound_save (S := LevelDBCertificateStore) c h

/-! ## An open store in order

Such a store is a lawful one: what it has is what was saved, and what it lists for a round is
stored and of that round. -/

theorem Represents.getCertificate_eq_ok (h : s.Represents held slot highest) {d : Hash} :
    CertificateStore.getCertificate s d = .ok c ↔ held d = some c := by
  change s.getCertificate d = .ok c ↔ held d = some c
  rw [h.getCertificate]
  cases held d with
  | none => simp
  | some c' => simp

instance : CertificateStore { s : LevelDBCertificateStore // s.Sound } where
  saveCertificate s c :=
    ((s.1.saveCertificate c).1,
      ⟨(s.1.saveCertificate c).2,
        TalliesRounds.sound_save (S := LevelDBCertificateStore) c s.2⟩)
  getCertificate s := s.1.getCertificate
  hasCertificate s := s.1.hasCertificate
  getCertificatesByRound s := s.1.getCertificatesByRound
  getCertificateForValidator s := s.1.getCertificateForValidator
  deleteCertificatesBefore s r :=
    ((s.1.deleteCertificatesBefore r).1,
      ⟨(s.1.deleteCertificatesBefore r).2,
        TalliesRounds.sound_delete (S := LevelDBCertificateStore) r s.2⟩)
  highestRound s := s.1.highestRound

instance : Inhabited { s : LevelDBCertificateStore // s.Sound } := ⟨⟨new, sound_new⟩⟩

instance : LawfulCertificateStore { s : LevelDBCertificateStore // s.Sound } where
  hasCertificate_iff := by
    rintro ⟨s, held, slot, highest, h⟩ d
    show s.hasCertificate d = true ↔ ∃ c, CertificateStore.getCertificate s d = .ok c
    simp only [h.hasCertificate, h.getCertificate_eq_ok, Option.isSome_iff_exists]
  digest_eq := by
    rintro ⟨s, held, slot, highest, h⟩ d c hget
    exact h.keyed (h.getCertificate_eq_ok.mp hget)
  getCertificate_save := by
    rintro ⟨s, held, slot, highest, h⟩ c c' d hget
    obtain ⟨-, _, _, _, h', hsaved, -⟩ := h.save c
    exact ((hsaved d c').mp (h'.getCertificate_eq_ok.mp hget)).imp h.getCertificate_eq_ok.mpr
      fun hnew => hnew.2.2
  save_keeps := by
    rintro ⟨s, held, slot, highest, h⟩ c c' d hget
    obtain ⟨-, _, _, _, h', hsaved, -⟩ := h.save c
    exact h'.getCertificate_eq_ok.mpr
      ((hsaved d c').mpr (.inl (h.getCertificate_eq_ok.mp hget)))
  getCertificate_delete := by
    rintro ⟨s, held, slot, highest, h⟩ r d c hget
    obtain ⟨held', h', hleft⟩ := h.deleted r
    exact h.getCertificate_eq_ok.mpr (hleft d c (h'.getCertificate_eq_ok.mp hget))

instance : LawfulCertificateRounds { s : LevelDBCertificateStore // s.Sound } where
  byRound {s r cs c} hcs hc := by
    refine TalliesRounds.stored (S := LevelDBCertificateStore) s.2 (r := r) ?_
    rwa [listedCertificates_of_ok (S := LevelDBCertificateStore) hcs]

instance : AcceptingCertificateStore { s : LevelDBCertificateStore // s.Sound } where
  accepts _ := True
  save_ok {s} c _ := TalliesRounds.save_ok (S := LevelDBCertificateStore) c s.2
  accepts_save _ _ := trivial

omit [Cramberry Certificate] in
theorem reopen_close (hs : s.closed = false) (hdb : s.db.closed = false) :
    s.close.2.reopen = s := by
  obtain ⟨⟨data, full, closed⟩, closed'⟩ := s
  cases hs
  cases hdb
  rfl

instance : PersistsCertificates LevelDBCertificateStore where
  byRound_reopen {s r cs} h := by
    change s.getCertificatesByRound r = .ok cs at h
    show s.close.2.reopen.getCertificatesByRound r = .ok cs
    cases hs : s.closed with
    | true => simp [getCertificatesByRound, hs] at h
    | false =>
      cases hdb : s.db.closed with
      | true => simp [getCertificatesByRound, LevelDB.DB.iterate, hs, hdb] at h
      | false =>
        rw [reopen_close hs hdb]
        exact h

end LevelDBCertificateStore

end DagMempool
