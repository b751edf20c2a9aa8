import DagMempool.Gc.Gc

/-!
# The order certificates are listed in

`getOrderedCertificates` goes through the rounds one by one and sorts each by
author. If every round lists certificates of its own, with one for each author,
then the result lists exactly these, strictly ascending by round and then by author.
A list is determined by that: neither the walk over a map, nor the sorter, nor
the way the certificates got there is left in it.
-/

namespace DagMempool

namespace Certificate

/-- An earlier round, or a smaller author in the same. -/
def Before (a b : Certificate) : Prop :=
  a.round < b.round ∨ a.round = b.round ∧ a.author < b.author

theorem not_before_self (a : Certificate) : ¬ a.Before a := by
  rintro (hround | ⟨-, hauthor⟩)
  · exact absurd hround (UInt64.lt_irrefl _)
  · exact absurd hauthor (UInt16.lt_irrefl _)

theorem Before.asymm {a b : Certificate} (h : a.Before b) : ¬ b.Before a := by
  simp only [Before, UInt64.lt_iff_toNat_lt, UInt16.lt_iff_toNat_lt,
    ← UInt64.toNat_inj] at h ⊢
  omega

theorem eq_of_pairwise_before {l l' : List Certificate} (hl : l.Pairwise Before)
    (hl' : l'.Pairwise Before) (h : ∀ c, c ∈ l ↔ c ∈ l') : l = l' := by
  have hnodup : ∀ m : List Certificate, m.Pairwise Before → m.Nodup := by
    intro m hm
    refine hm.imp ?_
    rintro a b hab rfl
    exact not_before_self a hab
  refine List.Perm.eq_of_pairwise (fun a b _ _ hab hba => absurd hba hab.asymm) hl hl' ?_
  exact (List.perm_ext_iff_of_nodup (hnodup l hl) (hnodup l' hl')).mpr h

def le (a b : Certificate) : Bool :=
  decide (a.round < b.round) || (a.round == b.round && decide (a.author ≤ b.author))

def inOrder (l : List Certificate) : List Certificate := l.insertionSort fun a b => a.le b

theorem le_eq_true {a b : Certificate} :
    a.le b = true ↔ a.Before b ∨ a.round = b.round ∧ a.author = b.author := by
  simp only [le, Before, Bool.or_eq_true, Bool.and_eq_true, decide_eq_true_eq, beq_iff_eq,
    UInt16.le_iff_toNat_le, UInt16.lt_iff_toNat_lt, UInt64.lt_iff_toNat_lt,
    ← UInt16.toNat_inj, ← UInt64.toNat_inj]
  omega

theorem mem_inOrder {l : List Certificate} {c : Certificate} : c ∈ inOrder l ↔ c ∈ l :=
  (List.perm_insertionSort _ l).mem_iff

theorem pairwise_inOrder {l : List Certificate}
    (h : l.Pairwise fun a b => ¬ (a.round = b.round ∧ a.author = b.author)) :
    (inOrder l).Pairwise Before := by
  have htotal : Std.Total fun a b : Certificate => a.le b = true := ⟨fun a b => by
    simp only [le, Bool.or_eq_true, Bool.and_eq_true, decide_eq_true_eq, beq_iff_eq,
      UInt16.le_iff_toNat_le, UInt64.lt_iff_toNat_lt, ← UInt64.toNat_inj]
    omega⟩
  have htrans : IsTrans Certificate fun a b => a.le b = true := ⟨fun a b c hab hbc => by
    simp only [le, Bool.or_eq_true, Bool.and_eq_true, decide_eq_true_eq, beq_iff_eq,
      UInt16.le_iff_toNat_le, UInt64.lt_iff_toNat_lt, ← UInt64.toNat_inj] at hab hbc ⊢
    omega⟩
  have hsorted : (inOrder l).Pairwise fun a b => a.le b = true :=
    List.pairwise_insertionSort _ l
  have hslots := ((List.perm_insertionSort (fun a b : Certificate => a.le b = true) l).pairwise_iff
    (fun {a b} hab hba => hab ⟨hba.1.symm, hba.2.symm⟩)).mpr h
  refine (hsorted.and hslots).imp fun {a b} hab => ?_
  exact (le_eq_true.mp hab.1).resolve_right hab.2

end Certificate

theorem roundsFrom_of_le {start before : UInt64} (h : before ≤ start) :
    roundsFrom start before = [] := by
  rw [UInt64.le_iff_toNat_le] at h
  rw [roundsFrom, Nat.sub_eq_zero_of_le h]
  rfl

theorem roundsFrom_of_lt {start before : UInt64} (h : start < before) :
    roundsFrom start before = start :: roundsFrom (start + 1) before := by
  have hlt := before.toNat_lt
  rw [UInt64.lt_iff_toNat_lt] at h
  have hsucc : (start + 1).toNat = start.toNat + 1 := toNat_succ (by omega)
  have hlen : before.toNat - start.toNat = (before.toNat - (start.toNat + 1)) + 1 := by omega
  rw [roundsFrom, roundsFrom, hsucc, hlen, List.range_succ_eq_map, List.map_cons, List.map_map]
  congr 1
  · exact UInt64.ofNat_toNat
  · refine List.map_congr_left fun i _ => ?_
    show UInt64.ofNat (start.toNat + (i + 1)) = UInt64.ofNat (start.toNat + 1 + i)
    rw [Nat.add_assoc, Nat.add_comm 1 i]

theorem pairwise_roundsFrom (start before : UInt64) :
    (roundsFrom start before).Pairwise (· < ·) := by
  have hlt : before.toNat < UInt64.size := before.toNat_lt
  rw [roundsFrom, List.pairwise_map]
  refine (List.pairwise_lt_range).imp_of_mem fun {i j} hi hj hij => ?_
  rw [List.mem_range] at hi hj
  rw [UInt64.lt_iff_toNat_lt, UInt64.toNat_ofNat_of_lt' (by omega),
    UInt64.toNat_ofNat_of_lt' (by omega)]
  omega

namespace Dag

variable [SliceSort] {CS : Type} [CertificateStore CS]

def sortedRound (d : Dag) (certStore : CS) (order : IterOrder Certificate) (round : UInt64) :
    List Certificate :=
  SliceSort.sortSlice (fun a b => decide (a.author.toNat < b.author.toNat))
    (d.getCertificatesForRound certStore order round)

variable {toRound : UInt64} {d : Dag}

/-- The loop over the rounds, on fuel enough: it ends if there is a round after the
last. -/
theorem orderedLoop_eq (d : Dag) (certStore : CS) (order : IterOrder Certificate)
    (hlast : toRound.toNat < 2 ^ 64 - 1) (fuel : Nat) (round : UInt64) (result : List Certificate)
    (hfuel : toRound.toNat + 1 - round.toNat < fuel) :
    d.orderedLoop certStore order toRound fuel round result =
      some (result ++
        (roundsFrom round (toRound + 1)).flatMap (d.sortedRound certStore order)) := by
  have hsucc : (toRound + 1).toNat = toRound.toNat + 1 := toNat_succ (by omega)
  induction fuel generalizing round result with
  | zero => omega
  | succ fuel ih =>
    rw [orderedLoop]
    split
    · next hle =>
        rw [UInt64.le_iff_toNat_le] at hle
        have hround : (round + 1).toNat = round.toNat + 1 := toNat_succ (by omega)
        have hlt : round < toRound + 1 := by
          rw [UInt64.lt_iff_toNat_lt]
          omega
        rw [ih _ _ (by omega), roundsFrom_of_lt hlt, List.flatMap_cons, List.append_assoc]
        rfl
    · next hgt =>
        rw [UInt64.le_iff_toNat_le] at hgt
        have hle : toRound + 1 ≤ round := by
          rw [UInt64.le_iff_toNat_le]
          omega
        rw [roundsFrom_of_le hle, List.flatMap_nil, List.append_nil]

theorem getOrderedCertificates_eq (d : Dag) (certStore : CS) (order : IterOrder Certificate)
    (fromRound : UInt64) (hlast : toRound.toNat < 2 ^ 64 - 1) :
    d.getOrderedCertificates certStore order fromRound toRound =
      some ((roundsFrom fromRound (toRound + 1)).flatMap (d.sortedRound certStore order)) := by
  have hsucc : (toRound + 1).toNat = toRound.toNat + 1 := toNat_succ (by omega)
  unfold getOrderedCertificates
  split
  · next hlt =>
      rw [UInt64.lt_iff_toNat_lt] at hlt
      have hle : toRound + 1 ≤ fromRound := by
        rw [UInt64.le_iff_toNat_le]
        omega
      rw [roundsFrom_of_le hle, List.flatMap_nil]
  · have hfuel : toRound.toNat + 1 - fromRound.toNat < orderedFuel := by
      show _ < 2 ^ 64 + 1
      omega
    rw [d.orderedLoop_eq certStore order hlast _ _ _ hfuel, List.nil_append]

/-- With the last round of all the loop does not end. -/
theorem orderedLoop_last (d : Dag) (certStore : CS) (order : IterOrder Certificate)
    (hlast : ¬ toRound.toNat < 2 ^ 64 - 1) (fuel : Nat) (round : UInt64)
    (result : List Certificate) :
    d.orderedLoop certStore order toRound fuel round result = none := by
  have hle : ∀ r : UInt64, r ≤ toRound := by
    intro r
    have hr := r.toNat_lt
    rw [UInt64.le_iff_toNat_le]
    omega
  induction fuel generalizing round result with
  | zero => rfl
  | succ fuel ih => rw [orderedLoop, if_pos (hle round), ih]

variable {certStore : CS} {order : IterOrder Certificate}

theorem mem_getOrderedCertificates {fromRound toRound : UInt64} {certs : List Certificate}
    (h : d.getOrderedCertificates certStore order fromRound toRound = some certs)
    {c : Certificate} (hc : c ∈ certs) :
    ∃ r, fromRound ≤ r ∧ c ∈ d.getCertificatesForRound certStore order r := by
  by_cases hlast : toRound.toNat < 2 ^ 64 - 1
  · rw [d.getOrderedCertificates_eq certStore order fromRound hlast] at h
    cases h
    obtain ⟨r, hr, hc⟩ := List.mem_flatMap.mp hc
    exact ⟨r, (mem_roundsFrom.mp hr).1, SliceSort.mem_sortSlice.mp hc⟩
  · unfold getOrderedCertificates at h
    split at h
    · cases h
      cases hc
    · rw [d.orderedLoop_last certStore order hlast] at h
      cases h

omit [SliceSort] in
theorem mem_getCertificatesForRound_cases [LawfulCertificateRounds CS] {r : UInt64}
    {c : Certificate} (h : c ∈ d.getCertificatesForRound certStore order r) :
    (∃ a, d.slot r a = some c) ∨
      CertificateStore.getCertificate certStore c.digest = .ok c ∧ c.round = r := by
  unfold getCertificatesForRound at h
  split at h
  · next rd hrd =>
      obtain ⟨a, ha⟩ := GoMap.mem_values.mp (order.mem_arrange.mp h)
      exact .inl ⟨a, by rw [slot, hrd]; exact ha⟩
  · split at h
    · next certs hcerts => exact .inr (LawfulCertificateRounds.byRound hcerts h)
    · cases h

/-- A round answers with certificates of its own, one for each author. -/
structure ListsRound (d : Dag) (certStore : CS) (order : IterOrder Certificate)
    (round : UInt64) : Prop where
  own : ∀ c ∈ d.getCertificatesForRound certStore order round, c.round = round
  authors : ((d.getCertificatesForRound certStore order round).map (·.author)).Nodup

theorem ListsRound.pairwise {round : UInt64} (h : d.ListsRound certStore order round) :
    (d.sortedRound certStore order round).Pairwise Certificate.Before := by
  have hperm := SliceSort.perm
    (fun a b : Certificate => decide (a.author.toNat < b.author.toNat))
    (d.getCertificatesForRound certStore order round)
  have hnodup : ((d.sortedRound certStore order round).map (·.author)).Nodup :=
    (hperm.map _).nodup_iff.mpr h.authors
  have hsorted : (d.sortedRound certStore order round).Pairwise
      fun a b => a.author.toNat ≤ b.author.toNat :=
    SliceSort.sorted_key (fun c : Certificate => c.author.toNat) _
  refine ((List.pairwise_map.mp hnodup).and hsorted).imp_of_mem fun {a b} ha hb hab => ?_
  have hround : a.round = b.round :=
    (h.own a (hperm.mem_iff.mp ha)).trans (h.own b (hperm.mem_iff.mp hb)).symm
  refine .inr ⟨hround, UInt16.lt_iff_toNat_lt.mpr (Nat.lt_of_le_of_ne hab.2 ?_)⟩
  exact fun heq => hab.1 (UInt16.toNat_inj.mp heq)

theorem getOrderedCertificates_spec {fromRound toRound : UInt64}
    (hlast : toRound.toNat < 2 ^ 64 - 1)
    (h : ∀ r, fromRound ≤ r → r ≤ toRound → d.ListsRound certStore order r) :
    ∃ certs, d.getOrderedCertificates certStore order fromRound toRound = some certs ∧
      certs.Pairwise Certificate.Before ∧
      ∀ c, c ∈ certs ↔ (fromRound ≤ c.round ∧ c.round ≤ toRound) ∧
        c ∈ d.getCertificatesForRound certStore order c.round := by
  have hsucc : (toRound + 1).toNat = toRound.toNat + 1 := toNat_succ (by omega)
  have hmem : ∀ r, r ∈ roundsFrom fromRound (toRound + 1) ↔ fromRound ≤ r ∧ r ≤ toRound := by
    intro r
    rw [mem_roundsFrom]
    refine and_congr_right fun _ => ?_
    rw [UInt64.lt_iff_toNat_lt, UInt64.le_iff_toNat_le, hsucc]
    omega
  have hround : ∀ {r c}, r ∈ roundsFrom fromRound (toRound + 1) →
      c ∈ d.sortedRound certStore order r → c.round = r := by
    intro r c hr hc
    exact (h r ((hmem r).mp hr).1 ((hmem r).mp hr).2).own c (SliceSort.mem_sortSlice.mp hc)
  refine ⟨_, d.getOrderedCertificates_eq certStore order fromRound hlast, ?_, fun c => ?_⟩
  · rw [List.pairwise_flatMap]
    refine ⟨fun r hr => (h r ((hmem r).mp hr).1 ((hmem r).mp hr).2).pairwise, ?_⟩
    refine (pairwise_roundsFrom _ _).imp_of_mem fun {r r'} hr hr' hlt a ha b hb => ?_
    refine .inl ?_
    rw [hround hr ha, hround hr' hb]
    exact hlt
  · rw [List.mem_flatMap]
    constructor
    · rintro ⟨r, hr, hc⟩
      obtain rfl := hround hr hc
      exact ⟨(hmem _).mp hr, SliceSort.mem_sortSlice.mp hc⟩
    · rintro ⟨hr, hc⟩
      exact ⟨c.round, (hmem _).mpr hr, SliceSort.mem_sortSlice.mpr hc⟩

end Dag

end DagMempool
