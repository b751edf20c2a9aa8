import DagMempool.Dag.Dag

/-!
# Single rounds: reading, pruning and loading them

The rest of the DAG's methods about rounds. Pruning drops a round from memory and
leaves the store alone; loading puts back what the store lists for a round, in place
of whatever the round held. A load writes the new record over the old one but clears
nothing from the index by digest.
-/

namespace DagMempool

namespace Dag

def getRound (d : Dag) (round : UInt64) : Option RoundData := d.rounds.get round

def roundCount (d : Dag) : Nat := d.rounds.len

def certificateCount (d : Dag) (round : UInt64) : Nat :=
  match d.rounds.get round with
  | none => 0
  | some rd => rd.count

/-- The digests of the certificates a round has in memory. -/
def roundDigests (d : Dag) (round : UInt64) : List Hash :=
  match d.rounds.get round with
  | none => []
  | some rd => rd.certificates.values.map (·.digest)

def pruneRound (d : Dag) (round : UInt64) : Dag :=
  invalidateHistoryCache
    { d with
      certIndex := d.certIndex.delAll (d.roundDigests round)
      rounds := d.rounds.del round }

section

variable {CS : Type} [CertificateStore CS]

def getCertificateForValidator (d : Dag) (certStore : CS) (round : UInt64)
    (validator : UInt16) : Option Certificate :=
  match d.rounds.get round with
  | some rd => rd.certificates.get validator
  | none => (CertificateStore.getCertificateForValidator certStore round validator).toOption

def loadRound (d : Dag) (certStore : CS) (round : UInt64) : Except GoError Unit × Dag :=
  match CertificateStore.getCertificatesByRound certStore round with
  | .error err => (.error err, d)
  | .ok certs =>
    (.ok (), { d with
      rounds := d.rounds.set round (certs.foldl RoundData.addCertificate (.new round))
      certIndex := certs.foldl (fun index cert => index.set cert.digest cert) d.certIndex
      highestRound := if d.highestRound < round then round else d.highestRound })

/-- The loop `for round := fromRound; round <= highestRound; round++`, with a counter
that wraps around; `none` is a loop that has not ended within its fuel. -/
def loadLoop (certStore : CS) (highestRound : UInt64) :
    Nat → UInt64 → Dag → Option (Except GoError Unit × Dag)
  | 0, _, _ => none
  | fuel + 1, round, d =>
    if round ≤ highestRound then
      match (d.loadRound certStore round).1 with
      | .error err => some (.error err, (d.loadRound certStore round).2)
      | .ok () => loadLoop certStore highestRound fuel (round + 1) (d.loadRound certStore round).2
    else some (.ok (), d)

def loadRoundsFrom (d : Dag) (certStore : CS) (fromRound : UInt64) :
    Option (Except GoError Unit × Dag) :=
  loadLoop certStore (CertificateStore.highestRound certStore) orderedFuel fromRound d

end

/-! ## Slots under them -/

theorem slot_pruneRound (d : Dag) (round r : UInt64) (a : UInt16) :
    (d.pruneRound round).slot r a = if r = round then none else d.slot r a := by
  have hrounds : (d.pruneRound round).rounds = d.rounds.del round := rfl
  rw [slot, hrounds, GoMap.get_del, slot]
  by_cases hr : r = round
  · simp [hr]
  · simp [hr]

variable {c : Certificate}

theorem mem_roundDigests {d : Dag} {round : UInt64} {digest : Hash} :
    digest ∈ d.roundDigests round ↔ ∃ a c, d.slot round a = some c ∧ c.digest = digest := by
  unfold roundDigests slot
  cases d.rounds.get round with
  | none => simp
  | some rd =>
    simp only [List.mem_map, GoMap.mem_values]
    constructor
    · rintro ⟨c, ⟨a, ha⟩, hd⟩
      exact ⟨a, c, ha, hd⟩
    · rintro ⟨a, c, ha, hd⟩
      exact ⟨c, ⟨a, ha⟩, hd⟩

theorem certIndex_pruneRound {d : Dag} {round : UInt64} {digest : Hash} :
    (d.pruneRound round).certIndex.get digest = some c ↔
      d.certIndex.get digest = some c ∧
        ∀ a c', d.slot round a = some c' → c'.digest ≠ digest := by
  have hindex : (d.pruneRound round).certIndex = d.certIndex.delAll (d.roundDigests round) := rfl
  rw [hindex, GoMap.get_delAll_eq_some, and_comm, mem_roundDigests]
  simp only [not_exists, not_and]

theorem certIndex_pruneRoundsBefore_iff {d : Dag} {round : UInt64} {digest : Hash} :
    (d.pruneRoundsBefore round).certIndex.get digest = some c ↔
      d.certIndex.get digest = some c ∧
        ∀ r a c', r < round → d.slot r a = some c' → c'.digest ≠ digest := by
  have hindex : (d.pruneRoundsBefore round).certIndex = d.certIndex.delAll
      ((d.rounds.filter fun r _ => decide (r < round)).values.flatMap fun rd =>
        rd.certificates.values.map (·.digest)) := rfl
  rw [hindex, GoMap.get_delAll_eq_some, and_comm]
  refine and_congr_right fun _ => ?_
  simp only [List.mem_flatMap, List.mem_map, GoMap.mem_values, GoMap.get_filter_eq_some,
    decide_eq_true_eq, not_exists, not_and]
  constructor
  · intro h r a c' hlt hslot
    unfold slot at hslot
    split at hslot
    · cases hslot
    · next rd hrd => exact h rd ⟨r, hrd, hlt⟩ c' ⟨a, hslot⟩
  · rintro h rd ⟨r, hrd, hlt⟩ c' ⟨a, hc'⟩
    exact h r a c' hlt (by rw [slot, hrd]; exact hc')

/-- Adding one certificate after the other leaves each author the last of its own. -/
theorem get_foldl_addCertificate (certs : List Certificate) (rd : RoundData) (a : UInt16) :
    (certs.foldl RoundData.addCertificate rd).certificates.get a =
      (certs.reverse.find? fun c => decide (c.author = a)).or (rd.certificates.get a) := by
  induction certs generalizing rd with
  | nil => simp
  | cons c certs ih =>
    rw [List.foldl_cons, ih, List.reverse_cons, List.find?_append, Option.or_assoc]
    congr 1
    rw [RoundData.addCertificate, GoMap.get_set]
    by_cases ha : a = c.author
    · simp [ha]
    · simp [ha, Ne.symm ha]

section

variable {CS : Type} [CertificateStore CS]
variable {d : Dag} {certStore : CS} {round : UInt64} {digest : Hash}

theorem loadRound_of_error {err : GoError} (h : (d.loadRound certStore round).1 = .error err) :
    (d.loadRound certStore round).2 = d := by
  unfold loadRound at h ⊢
  split
  · rfl
  · next certs hcerts =>
      rw [hcerts] at h
      cases h

/-- After a load the round has, for each author, the last certificate the store lists of
them. -/
theorem slot_loadRound (h : (d.loadRound certStore round).1 = .ok ()) (r : UInt64) (a : UInt16) :
    (d.loadRound certStore round).2.slot r a =
      if r = round then
        (listedCertificates certStore round).reverse.find? fun c => decide (c.author = a)
      else d.slot r a := by
  unfold loadRound at h ⊢
  split
  · next err herr =>
      rw [herr] at h
      cases h
  · next certs hcerts =>
      rw [listedCertificates_of_ok hcerts, slot]
      rw [GoMap.get_set]
      by_cases hr : r = round
      · rw [if_pos hr, if_pos hr]
        simp [get_foldl_addCertificate, RoundData.new]
      · rw [if_neg hr, if_neg hr]
        rfl

theorem get_foldl_index {certs : List Certificate} {index : GoMap Hash Certificate}
    (h : (certs.foldl (fun index cert => index.set cert.digest cert) index).get digest = some c) :
    index.get digest = some c ∨ c ∈ certs ∧ c.digest = digest := by
  induction certs generalizing index with
  | nil => exact .inl h
  | cons cert certs ih =>
    rcases ih h with hset | ⟨hmem, hd⟩
    · rcases GoMap.get_set_eq_some hset with ⟨hd, rfl⟩ | ⟨-, hold⟩
      · exact .inr ⟨List.mem_cons_self, hd.symm⟩
      · exact .inl hold
    · exact .inr ⟨List.mem_cons_of_mem _ hmem, hd⟩

theorem isSome_foldl_index (certs : List Certificate) {index : GoMap Hash Certificate}
    (h : (index.get digest).isSome) :
    ((certs.foldl (fun index cert => index.set cert.digest cert) index).get digest).isSome := by
  induction certs generalizing index with
  | nil => exact h
  | cons cert certs ih =>
    refine ih ?_
    rw [GoMap.get_set]
    split
    · rfl
    · exact h

theorem certIndex_loadRound (h : (d.loadRound certStore round).2.certIndex.get digest = some c) :
    d.certIndex.get digest = some c ∨
      c ∈ listedCertificates certStore round ∧ c.digest = digest := by
  unfold loadRound at h
  split at h
  · exact .inl h
  · next certs hcerts =>
      rw [listedCertificates_of_ok hcerts]
      exact get_foldl_index h

theorem isSome_certIndex_loadRound (h : (d.certIndex.get digest).isSome) (certStore : CS)
    (round : UInt64) : ((d.loadRound certStore round).2.certIndex.get digest).isSome := by
  unfold loadRound
  split
  · exact h
  · exact isSome_foldl_index _ h

theorem loadRound_of_ok {certs : List Certificate}
    (h : CertificateStore.getCertificatesByRound certStore round = .ok certs) :
    (d.loadRound certStore round).1 = .ok () ∧
      (d.loadRound certStore round).2.highestRound.toNat =
        max d.highestRound.toNat round.toNat := by
  rw [loadRound, h]
  refine ⟨rfl, ?_⟩
  simp only [UInt64.lt_iff_toNat_lt]
  split
  · omega
  · omega

/-- The loop over the rounds, if the store answers for each of them. -/
theorem loadLoop_spec {highest : UInt64} (hlast : highest.toNat < 2 ^ 64 - 1) (fuel : Nat)
    (round : UInt64) (d : Dag) (hfuel : highest.toNat + 1 - round.toNat < fuel)
    (hanswers : ∀ r, round ≤ r → r ≤ highest →
      ∃ certs, CertificateStore.getCertificatesByRound certStore r = .ok certs) :
    ∃ d', loadLoop certStore highest fuel round d = some (.ok (), d') ∧
      d'.highestRound.toNat =
        (if round ≤ highest then max d.highestRound.toNat highest.toNat
          else d.highestRound.toNat) ∧
      ∀ r a, d'.slot r a =
        if round ≤ r ∧ r ≤ highest then
          (listedCertificates certStore r).reverse.find? fun c => decide (c.author = a)
        else d.slot r a := by
  induction fuel generalizing round d with
  | zero => omega
  | succ fuel ih =>
    rw [loadLoop]
    by_cases hle : round ≤ highest
    · obtain ⟨certs, hcerts⟩ := hanswers round (UInt64.le_refl _) hle
      obtain ⟨hok, hhigh⟩ := loadRound_of_ok (d := d) hcerts
      have hnat := UInt64.le_iff_toNat_le.mp hle
      have hnext : (round + 1).toNat = round.toNat + 1 := toNat_succ (by omega)
      have hafter : ∀ r : UInt64, round + 1 ≤ r ↔ round ≤ r ∧ r ≠ round := by
        intro r
        rw [UInt64.le_iff_toNat_le, UInt64.le_iff_toNat_le, hnext, Ne, ← UInt64.toNat_inj]
        omega
      obtain ⟨d', hloop, hhigh', hslots⟩ := ih (round + 1) (d.loadRound certStore round).2
        (by omega) fun r hr => hanswers r ((hafter r).mp hr).1
      rw [if_pos hle, hok]
      refine ⟨d', hloop, ?_, fun r a => ?_⟩
      · rw [hhigh', hhigh, if_pos hle]
        split
        · omega
        · next hgt =>
            rw [UInt64.le_iff_toNat_le, hnext] at hgt
            omega
      · simp only [hslots, slot_loadRound hok, hafter]
        by_cases hr : r = round
        · subst hr
          simp [hle]
        · simp [hr]
    · rw [if_neg hle]
      refine ⟨d, rfl, by rw [if_neg hle], fun r a => ?_⟩
      rw [if_neg fun h => hle (UInt64.le_trans h.1 h.2)]

theorem certIndex_loadLoop {highest : UInt64} {fuel : Nat} {result : Except GoError Unit × Dag}
    (hloop : loadLoop certStore highest fuel round d = some result)
    (h : result.2.certIndex.get digest = some c) :
    d.certIndex.get digest = some c ∨
      ∃ r, c ∈ listedCertificates certStore r ∧ c.digest = digest := by
  induction fuel generalizing round d with
  | zero => exact absurd hloop (by simp [loadLoop])
  | succ fuel ih =>
    have hround : (d.loadRound certStore round).2.certIndex.get digest = some c →
        d.certIndex.get digest = some c ∨
          ∃ r, c ∈ listedCertificates certStore r ∧ c.digest = digest := fun hc =>
      (certIndex_loadRound hc).imp_right fun hlisted => ⟨round, hlisted⟩
    rw [loadLoop] at hloop
    split at hloop
    · split at hloop
      · obtain rfl := Option.some.inj hloop
        exact hround h
      · rcases ih hloop with hc | hlisted
        · exact hround hc
        · exact .inr hlisted
    · obtain rfl := Option.some.inj hloop
      exact .inl h

/-- Loading from a round on brings back what the store lists, and its highest round. -/
theorem loadRoundsFrom_spec (d : Dag) {fromRound : UInt64}
    (hlast : (CertificateStore.highestRound certStore).toNat < 2 ^ 64 - 1)
    (hanswers : ∀ r, fromRound ≤ r → r ≤ CertificateStore.highestRound certStore →
      ∃ certs, CertificateStore.getCertificatesByRound certStore r = .ok certs) :
    ∃ d', d.loadRoundsFrom certStore fromRound = some (.ok (), d') ∧
      (fromRound ≤ CertificateStore.highestRound certStore → d'.highestRound.toNat =
        max d.highestRound.toNat (CertificateStore.highestRound certStore).toNat) ∧
      ∀ r a, d'.slot r a =
        if fromRound ≤ r ∧ r ≤ CertificateStore.highestRound certStore then
          (listedCertificates certStore r).reverse.find? fun c => decide (c.author = a)
        else d.slot r a := by
  have hfuel : (CertificateStore.highestRound certStore).toNat + 1 - fromRound.toNat <
      orderedFuel := by
    show _ < 2 ^ 64 + 1
    omega
  obtain ⟨d', hloop, hhigh, hslots⟩ := loadLoop_spec hlast orderedFuel fromRound d hfuel hanswers
  refine ⟨d', hloop, fun hle => ?_, hslots⟩
  rw [hhigh, if_pos hle]

end

end Dag

end DagMempool
