import DagMempool.Store.Store

/-!
# The DAG

Certificates by round and author, an index of them by digest, and the marks for
the highest and the committed round. The certificate store behind it is shared
with the primary, so it is not part of the DAG's state: operations that read or
write it take it as an argument and return it.

Two things in `addCertificate` are as they are in the source and matter later.
The round's record is created before anything is checked, so a rejected
certificate can leave an empty round behind. And a parent counts as present when
the store has it, whether or not it was ever admitted to a round.

The cache of causal histories is kept because adding a certificate cleans it; a
cached history is listed from its own certificate on, so its head's round is
compared.
-/

namespace DagMempool

theorem toNat_succ {r : UInt64} (h : r.toNat + 1 < 2 ^ 64) : (r + 1).toNat = r.toNat + 1 := by
  rw [UInt64.toNat_add, UInt64.toNat_one, Nat.mod_eq_of_lt h]

structure RoundData where
  round : UInt64
  certificates : GoMap UInt16 Certificate
  committed : Bool

namespace RoundData

def new (round : UInt64) : RoundData := { round, certificates := ∅, committed := false }

def addCertificate (rd : RoundData) (cert : Certificate) : RoundData :=
  { rd with certificates := rd.certificates.set cert.author cert }

def count (rd : RoundData) : Nat := rd.certificates.len

def setCommitted (rd : RoundData) : RoundData := { rd with committed := true }

def getAllCertificates (rd : RoundData) (order : IterOrder Certificate) : List Certificate :=
  order.arrange rd.certificates.values

end RoundData

/-- The part of `dag.Config` that is read. -/
structure DagConfig where
  maxHistoryDepth : Nat
  maxHistoryCacheSize : Nat

structure Dag where
  rounds : GoMap UInt64 RoundData
  certIndex : GoMap Hash Certificate
  highestRound : UInt64
  committedRound : UInt64
  hasCommitted : Bool
  cfg : DagConfig
  historyCache : GoMap Hash (List Certificate)
  historyCacheKeys : List Hash

namespace Dag

def new (cfg : DagConfig) : Dag :=
  { rounds := ∅, certIndex := ∅, highestRound := 0, committedRound := 0
    hasCommitted := false, cfg, historyCache := ∅, historyCacheKeys := [] }

/-- The certificate held in memory for a round and an author. -/
def slot (d : Dag) (round : UInt64) (author : UInt16) : Option Certificate :=
  match d.rounds.get round with
  | none => none
  | some rd => rd.certificates.get author

/-- Some round in memory holds a certificate with this digest. -/
def Holds (d : Dag) (digest : Hash) : Prop :=
  ∃ round author c, d.slot round author = some c ∧ c.digest = digest

/-- All certificates the rounds in memory hold. -/
def certificates (d : Dag) : List Certificate :=
  d.rounds.values.flatMap fun rd => rd.certificates.values

/-- A cached history that starts above a round. -/
def historyAbove (round : UInt64) : List Certificate → Bool
  | [] => false
  | c :: _ => decide (round < c.round)

def invalidateHistoryCacheForCertificate (d : Dag) (newCert : Certificate) : Dag :=
  let removed := (d.historyCache.filter fun _ history =>
    historyAbove newCert.round history).keys
  { d with
    historyCache := d.historyCache.filter fun _ history =>
      !historyAbove newCert.round history
    historyCacheKeys := d.historyCacheKeys.filter fun key => !removed.contains key }

def invalidateHistoryCache (d : Dag) : Dag :=
  { d with historyCache := ∅, historyCacheKeys := [] }

/-- `rd, exists := d.rounds[round]`, with the record created if there is none. -/
def ensureRound (d : Dag) (round : UInt64) : Dag :=
  match d.rounds.get round with
  | some _ => d
  | none => { d with rounds := d.rounds.set round (.new round) }

/-- The writes to memory of a certificate that passed the checks. -/
def insertCertificate (d : Dag) (cert : Certificate) : Dag :=
  let rd := (d.rounds.get cert.round).getD (.new cert.round)
  invalidateHistoryCacheForCertificate
    { d with
      rounds := d.rounds.set cert.round (rd.addCertificate cert)
      certIndex := d.certIndex.set cert.digest cert
      highestRound := if d.highestRound < cert.round then cert.round else d.highestRound }
    cert

section

variable {CS : Type} [CertificateStore CS]

/-- In the index, or in the store. -/
def hasCertificate (d : Dag) (certStore : CS) (digest : Hash) : Bool :=
  d.certIndex.has digest || CertificateStore.hasCertificate certStore digest

def addCertificate (d : Dag) (certStore : CS) (cert : Certificate) :
    Except GoError Unit × Dag × CS :=
  let d := d.ensureRound cert.round
  if (d.slot cert.round cert.author).isSome then (.error .duplicateHeader, d, certStore)
  else if 0 < cert.round &&
      !cert.header.parents.all fun ref => d.hasCertificate certStore ref.digest then
    (.error .missingParents, d, certStore)
  else
    -- Memory is written first; an error of the store is returned but not undone.
    let saved := CertificateStore.saveCertificate certStore cert
    (saved.1, d.insertCertificate cert, saved.2)

def getCertificate (d : Dag) (certStore : CS) (digest : Hash) : Except GoError Certificate :=
  match d.certIndex.get digest with
  | some cert => .ok cert
  | none => CertificateStore.getCertificate certStore digest

/-- A round that is in memory answers by itself, even when it is empty. -/
def getCertificatesForRound (d : Dag) (certStore : CS) (order : IterOrder Certificate)
    (round : UInt64) : List Certificate :=
  match d.rounds.get round with
  | some rd => rd.getAllCertificates order
  | none =>
    match CertificateStore.getCertificatesByRound certStore round with
    | .ok certs => certs
    | .error _ => []

/-- The loop `for round := fromRound; round <= toRound; round++`. The counter
wraps around, so with `toRound = 2^64 - 1` the condition never fails; `none` is a
loop that has not ended within its fuel. -/
def orderedLoop [SliceSort] (d : Dag) (certStore : CS) (order : IterOrder Certificate)
    (toRound : UInt64) : Nat → UInt64 → List Certificate → Option (List Certificate)
  | 0, _, _ => none
  | fuel + 1, round, result =>
    if round ≤ toRound then
      let certs := SliceSort.sortSlice
        (fun a b => decide (a.author.toNat < b.author.toNat))
        (d.getCertificatesForRound certStore order round)
      orderedLoop d certStore order toRound fuel (round + 1) (result ++ certs)
    else some result

/-- More rounds than there are, so that running out of fuel is not to end. -/
def orderedFuel : Nat := 2 ^ 64 + 1

def getOrderedCertificates [SliceSort] (d : Dag) (certStore : CS)
    (order : IterOrder Certificate) (fromRound toRound : UInt64) :
    Option (List Certificate) :=
  if toRound < fromRound then some []
  else d.orderedLoop certStore order toRound orderedFuel fromRound []

end

def setCommittedRound (d : Dag) (round : UInt64) : Dag :=
  { d with
    committedRound := round
    hasCommitted := true
    rounds := d.rounds.map fun r rd => if r ≤ round then rd.setCommitted else rd }

def pruneRoundsBefore (d : Dag) (round : UInt64) : Dag :=
  let pruned := (d.rounds.filter fun r _ => decide (r < round)).values.flatMap fun rd =>
    rd.certificates.values.map (·.digest)
  invalidateHistoryCache
    { d with
      certIndex := d.certIndex.delAll pruned
      rounds := d.rounds.filter fun r _ => !decide (r < round) }

/-! ## Slots under each operation -/

variable {r : UInt64} {digest : Hash}

theorem mem_certificates {d : Dag} {c : Certificate} :
    c ∈ d.certificates ↔ ∃ r a, d.slot r a = some c := by
  rw [certificates, List.mem_flatMap]
  constructor
  · rintro ⟨rd, hrd, hc⟩
    obtain ⟨r, hr⟩ := GoMap.mem_values.mp hrd
    obtain ⟨a, ha⟩ := GoMap.mem_values.mp hc
    exact ⟨r, a, by rw [slot, hr]; exact ha⟩
  · rintro ⟨r, a, hslot⟩
    unfold slot at hslot
    split at hslot
    · cases hslot
    · next rd hrd =>
        exact ⟨rd, GoMap.mem_values.mpr ⟨r, hrd⟩, GoMap.mem_values.mpr ⟨a, hslot⟩⟩

instance (d : Dag) (digest : Hash) : Decidable (d.Holds digest) :=
  decidable_of_iff (∃ c ∈ d.certificates, c.digest = digest) (by
    simp only [mem_certificates, Holds]
    exact ⟨fun ⟨c, ⟨r, a, hc⟩, hd⟩ => ⟨r, a, c, hc, hd⟩,
      fun ⟨r, a, c, hc, hd⟩ => ⟨c, ⟨r, a, hc⟩, hd⟩⟩)

@[simp] theorem slot_new (cfg : DagConfig) (r : UInt64) (a : UInt16) :
    (new cfg).slot r a = none := by
  simp [slot, new]

@[simp] theorem slot_ensureRound (d : Dag) (round r : UInt64) (a : UInt16) :
    (d.ensureRound round).slot r a = d.slot r a := by
  unfold ensureRound
  split
  · rfl
  · next hnone =>
      unfold slot
      rw [GoMap.get_set]
      by_cases hr : r = round
      · subst hr
        simp [hnone, RoundData.new]
      · simp [hr]

@[simp] theorem certIndex_ensureRound (d : Dag) (round : UInt64) :
    (d.ensureRound round).certIndex = d.certIndex := by
  unfold ensureRound
  split <;> rfl

theorem slot_insertCertificate (d : Dag) (c : Certificate) (r : UInt64) (a : UInt16) :
    (d.insertCertificate c).slot r a =
      if r = c.round ∧ a = c.author then some c else d.slot r a := by
  have hrounds : (d.insertCertificate c).rounds = d.rounds.set c.round
      (((d.rounds.get c.round).getD (.new c.round)).addCertificate c) := rfl
  rw [slot, hrounds, GoMap.get_set, slot]
  by_cases hr : r = c.round
  · subst hr
    simp only [if_true, RoundData.addCertificate, GoMap.get_set, true_and]
    by_cases ha : a = c.author
    · simp [ha]
    · cases d.rounds.get c.round with
      | none => simp [RoundData.new]
      | some rd => simp
  · simp [hr]

theorem certIndex_insertCertificate (d : Dag) (c : Certificate) :
    (d.insertCertificate c).certIndex = d.certIndex.set c.digest c := rfl

theorem slot_setCommittedRound (d : Dag) (round r : UInt64) (a : UInt16) :
    (d.setCommittedRound round).slot r a = d.slot r a := by
  have hrounds : (d.setCommittedRound round).rounds =
      d.rounds.map fun r rd => if r ≤ round then rd.setCommitted else rd := rfl
  rw [slot, hrounds, slot]
  cases hr : d.rounds.get r with
  | none =>
    cases hm : (d.rounds.map fun r rd => if r ≤ round then rd.setCommitted else rd).get r with
    | none => rfl
    | some rd =>
      obtain ⟨rd', hrd', -⟩ := GoMap.get_map_eq_some.mp hm
      rw [hr] at hrd'
      cases hrd'
  | some rd =>
    rw [GoMap.get_map_eq_some.mpr ⟨rd, hr, rfl⟩]
    by_cases hle : r ≤ round
    · simp [hle, RoundData.setCommitted]
    · simp [hle]

theorem rounds_pruneRoundsBefore (d : Dag) (round r : UInt64) :
    (d.pruneRoundsBefore round).rounds.get r = if r < round then none else d.rounds.get r := by
  have hrounds : (d.pruneRoundsBefore round).rounds =
      d.rounds.filter fun r _ => !decide (r < round) := rfl
  rw [hrounds, GoMap.get_filter]
  cases d.rounds.get r with
  | none => simp
  | some rd => by_cases hlt : r < round <;> simp [Option.filter_some, hlt]

theorem slot_pruneRoundsBefore (d : Dag) (round r : UInt64) (a : UInt16) :
    (d.pruneRoundsBefore round).slot r a = if r < round then none else d.slot r a := by
  rw [slot, rounds_pruneRoundsBefore, slot]
  by_cases hlt : r < round
  · simp [hlt]
  · simp [hlt]

theorem certIndex_pruneRoundsBefore {d : Dag} {round : UInt64} {c : Certificate}
    (h : (d.pruneRoundsBefore round).certIndex.get digest = some c) :
    d.certIndex.get digest = some c :=
  (GoMap.get_delAll_eq_some.mp h).2

/-! ## What adding a certificate can do -/

section

variable {CS : Type} [CertificateStore CS]

/-- The checks of `addCertificate`: the slot is free and every parent of a round
above the first is known. -/
@[mk_iff] structure Admits (d : Dag) (certStore : CS) (cert : Certificate) : Prop where
  free : d.slot cert.round cert.author = none
  parents : 0 < cert.round →
    ∀ ref ∈ cert.header.parents, d.hasCertificate certStore ref.digest = true

instance (d : Dag) (certStore : CS) (cert : Certificate) :
    Decidable (d.Admits certStore cert) :=
  decidable_of_iff' _ (admits_iff d certStore cert)

variable {d : Dag} {certStore : CS} {c cert : Certificate}

/-- The order of a walk does not matter to what a round has. -/
theorem mem_getCertificatesForRound (order : IterOrder Certificate) {round : UInt64} :
    c ∈ d.getCertificatesForRound certStore order round ↔
      c ∈ d.getCertificatesForRound certStore .listed round := by
  unfold getCertificatesForRound
  split
  · exact order.mem_arrange.trans IterOrder.listed.mem_arrange.symm
  · exact Iff.rfl

theorem getCertificatesForRound_of_none (h : d.rounds.get r = none) (certStore : CS)
    (order : IterOrder Certificate) :
    d.getCertificatesForRound certStore order r = listedCertificates certStore r := by
  rw [getCertificatesForRound, h, listedCertificates]
  cases CertificateStore.getCertificatesByRound certStore r <;> rfl

theorem hasCertificate_of_certIndex_eq {d d' : Dag} (h : d'.certIndex = d.certIndex)
    (certStore : CS) (digest : Hash) :
    d'.hasCertificate certStore digest = d.hasCertificate certStore digest := by
  rw [hasCertificate, hasCertificate, h]

/-- Either the certificate was rejected, which at most adds an empty round, or it
was admitted. -/
theorem addCertificate_cases (d : Dag) (certStore : CS) (cert : Certificate) :
    (∃ err, d.addCertificate certStore cert =
        (.error err, d.ensureRound cert.round, certStore) ∧
      (err = .duplicateHeader ∧ d.slot cert.round cert.author ≠ none ∨
        err = .missingParents ∧ d.slot cert.round cert.author = none ∧ 0 < cert.round ∧
          ∃ ref ∈ cert.header.parents, d.hasCertificate certStore ref.digest = false)) ∨
    (d.Admits certStore cert ∧
      d.addCertificate certStore cert =
        ((CertificateStore.saveCertificate certStore cert).1,
          (d.ensureRound cert.round).insertCertificate cert,
          (CertificateStore.saveCertificate certStore cert).2)) := by
  have hhas : ∀ digest, (d.ensureRound cert.round).hasCertificate certStore digest =
      d.hasCertificate certStore digest :=
    hasCertificate_of_certIndex_eq (certIndex_ensureRound d cert.round) certStore
  unfold addCertificate
  simp only [slot_ensureRound, hhas]
  split
  · next hdup =>
      refine .inl ⟨_, rfl, .inl ⟨rfl, ?_⟩⟩
      intro hnone
      rw [hnone] at hdup
      cases hdup
  · next hfree =>
      have hfree : d.slot cert.round cert.author = none := by simpa using hfree
      split
      · next hmissing =>
          simp only [Bool.and_eq_true, decide_eq_true_eq, Bool.not_eq_true',
            List.all_eq_false] at hmissing
          obtain ⟨hpos, ref, href, hno⟩ := hmissing
          exact .inl ⟨_, rfl, .inr ⟨rfl, hfree, hpos, ref, href, by simpa using hno⟩⟩
      · next hparents =>
          refine .inr ⟨⟨hfree, fun hpos ref href => ?_⟩, rfl⟩
          by_contra hno
          refine hparents ?_
          simp only [Bool.and_eq_true, decide_eq_true_eq, Bool.not_eq_true',
            List.all_eq_false]
          exact ⟨hpos, ref, href, hno⟩

/-- A slot after an attempt to add: as before, or filled by the certificate, which
then passed the checks. -/
theorem slot_addCertificate {a : UInt16}
    (h : (d.addCertificate certStore cert).2.1.slot r a = some c) :
    d.slot r a = some c ∨
      (c = cert ∧ r = cert.round ∧ a = cert.author ∧ d.Admits certStore cert) := by
  rcases addCertificate_cases d certStore cert with ⟨err, heq, -⟩ | ⟨hadm, heq⟩
  · rw [heq, slot_ensureRound] at h
    exact .inl h
  · rw [heq, slot_insertCertificate] at h
    split at h
    · next hra => exact .inr ⟨(Option.some.inj h).symm, hra.1, hra.2, hadm⟩
    · rw [slot_ensureRound] at h
      exact .inl h

theorem slot_addCertificate_of_slot {a : UInt16} (h : d.slot r a = some c) (certStore : CS)
    (cert : Certificate) : (d.addCertificate certStore cert).2.1.slot r a = some c := by
  rcases d.addCertificate_cases certStore cert with ⟨err, heq, -⟩ | ⟨hadm, heq⟩
  · rw [heq, slot_ensureRound, h]
  · rw [heq, slot_insertCertificate, slot_ensureRound, if_neg, h]
    rintro ⟨rfl, rfl⟩
    exact absurd (hadm.free.symm.trans h) (by simp)

theorem Admits.not_refused {err : GoError} (h : d.Admits certStore cert) :
    ¬ (err = .duplicateHeader ∧ d.slot cert.round cert.author ≠ none ∨
      err = .missingParents ∧ d.slot cert.round cert.author = none ∧ 0 < cert.round ∧
        ∃ ref ∈ cert.header.parents, d.hasCertificate certStore ref.digest = false) := by
  rintro (⟨-, htaken⟩ | ⟨-, -, hpos, ref, href, hno⟩)
  · exact htaken h.free
  · exact absurd (h.parents hpos ref href) (by simp [hno])

theorem Admits.slot (h : d.Admits certStore cert) :
    (d.addCertificate certStore cert).2.1.slot cert.round cert.author = some cert := by
  rcases d.addCertificate_cases certStore cert with ⟨err, -, hbad⟩ | ⟨-, heq⟩
  · exact absurd hbad h.not_refused
  · rw [heq, slot_insertCertificate, if_pos ⟨rfl, rfl⟩]

theorem certIndex_addCertificate
    (h : (d.addCertificate certStore cert).2.1.certIndex.get digest = some c) :
    d.certIndex.get digest = some c ∨
      (c = cert ∧ digest = cert.digest ∧ d.Admits certStore cert) := by
  rcases addCertificate_cases d certStore cert with ⟨err, heq, -⟩ | ⟨hadm, heq⟩
  · rw [heq, certIndex_ensureRound] at h
    exact .inl h
  · rw [heq, certIndex_insertCertificate, certIndex_ensureRound] at h
    rcases GoMap.get_set_eq_some h with ⟨hd, hc⟩ | ⟨-, hold⟩
    · exact .inr ⟨hc, hd, hadm⟩
    · exact .inl hold

/-! ### What is known -/

section

variable [KeepsCertificates CS] {d : Dag} {certStore : CS}

theorem hasCertificate_saved (h : d.hasCertificate certStore digest = true) (c : Certificate) :
    d.hasCertificate (CertificateStore.saveCertificate certStore c).2 digest = true := by
  rw [hasCertificate, Bool.or_eq_true] at h ⊢
  exact h.imp_right (KeepsCertificates.has_save c)

theorem Admits.saved {cert : Certificate} (h : d.Admits certStore cert) (c : Certificate) :
    d.Admits (CertificateStore.saveCertificate certStore c).2 cert :=
  ⟨h.free, fun hpos ref href => hasCertificate_saved (h.parents hpos ref href) c⟩

theorem hasCertificate_added (h : d.hasCertificate certStore digest = true) (cert : Certificate) :
    (d.addCertificate certStore cert).2.1.hasCertificate
      (d.addCertificate certStore cert).2.2 digest = true := by
  rcases d.addCertificate_cases certStore cert with ⟨err, heq, -⟩ | ⟨-, heq⟩
  · rw [heq]
    exact (hasCertificate_of_certIndex_eq (certIndex_ensureRound d cert.round) certStore
      digest).trans h
  · rw [heq, hasCertificate, certIndex_insertCertificate, certIndex_ensureRound,
      Bool.or_eq_true, GoMap.has_set]
    have hsaved := hasCertificate_saved h cert
    rw [hasCertificate, Bool.or_eq_true] at hsaved
    exact hsaved.imp_left .inr

end

section

variable [KnowsSaved CS] {d : Dag} {certStore : CS}

theorem hasCertificate_of_saved {c : Certificate}
    (h : d.hasCertificate (CertificateStore.saveCertificate certStore c).2 digest = true) :
    d.hasCertificate certStore digest = true ∨ digest = c.digest := by
  rw [hasCertificate, Bool.or_eq_true] at h
  rw [hasCertificate, Bool.or_eq_true]
  rcases h with hindex | hstore
  · exact .inl (.inl hindex)
  · exact (KnowsSaved.has_save hstore).imp_left .inr

theorem hasCertificate_of_added {cert : Certificate}
    (h : (d.addCertificate certStore cert).2.1.hasCertificate
      (d.addCertificate certStore cert).2.2 digest = true) :
    d.hasCertificate certStore digest = true ∨ digest = cert.digest := by
  rcases d.addCertificate_cases certStore cert with ⟨err, heq, -⟩ | ⟨-, heq⟩
  · rw [heq, hasCertificate_of_certIndex_eq (certIndex_ensureRound d cert.round)] at h
    exact .inl h
  · rw [heq, hasCertificate, certIndex_insertCertificate, certIndex_ensureRound,
      Bool.or_eq_true, GoMap.has_set] at h
    rcases h with (hself | hindex) | hstore
    · exact .inr hself
    · exact .inl (by rw [hasCertificate, hindex, Bool.true_or])
    · refine hasCertificate_of_saved ?_
      rw [hasCertificate, hstore, Bool.or_true]

end

end

end Dag

end DagMempool
