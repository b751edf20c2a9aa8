import Mathlib.Data.Finset.Card

/-!
# Quorums

Members are drawn from a finite ground set of `n`, a quorum is any subset of at
least `q` of them, and at most `f` are faulty. Two quorums meet in at least
`2q - n` members, so `n + f < 2q` is what makes every two quorums share more
members than can be faulty. The bound is tight: below it there are two quorums
whose whole intersection can be faulty. Nothing here knows how `q` and `f` are
computed from `n`.
-/

namespace Quorum

variable {α : Type} [DecidableEq α]

/-- Two subsets of a ground set overlap in what their sizes exceed it by. -/
theorem card_add_card_le {V A B : Finset α} (hA : A ⊆ V) (hB : B ⊆ V) :
    A.card + B.card ≤ (A ∩ B).card + V.card := by
  have hunion := Finset.card_union_add_card_inter A B
  have hle := Finset.card_le_card (Finset.union_subset hA hB)
  omega

/-- Quorums large enough for the ground set share more than `f` members. -/
theorem card_inter_gt {V A B : Finset α} {q f : Nat} (hA : A ⊆ V) (hB : B ⊆ V)
    (hqA : q ≤ A.card) (hqB : q ≤ B.card) (hq : V.card + f < 2 * q) :
    f < (A ∩ B).card := by
  have h := card_add_card_le hA hB
  omega

/-- A set of more than `f` members has one outside any faulty set of size `f`. -/
theorem exists_not_mem {S Byz : Finset α} {f : Nat} (hS : f < S.card)
    (hByz : Byz.card ≤ f) : ∃ v ∈ S, v ∉ Byz := by
  by_contra hno
  have hsub : S ⊆ Byz := fun v hv => by
    by_contra hv'
    exact hno ⟨v, hv, hv'⟩
  have := Finset.card_le_card hsub
  omega

/-- Two quorums share a member that is not faulty. -/
theorem exists_honest_inter {V A B Byz : Finset α} {q f : Nat} (hA : A ⊆ V) (hB : B ⊆ V)
    (hqA : q ≤ A.card) (hqB : q ≤ B.card) (hByz : Byz.card ≤ f)
    (hq : V.card + f < 2 * q) : ∃ v, v ∈ A ∧ v ∈ B ∧ v ∉ Byz := by
  obtain ⟨v, hv, hvByz⟩ := exists_not_mem (card_inter_gt hA hB hqA hqB hq) hByz
  obtain ⟨hvA, hvB⟩ := Finset.mem_inter.mp hv
  exact ⟨v, hvA, hvB, hvByz⟩

/-- Below the bound two quorums can overlap in `f` members or fewer: take one, and
for the other everything outside it, filled up to size `q`. -/
theorem exists_small_inter {V : Finset α} {q f : Nat} (hqV : q ≤ V.card)
    (hq : 2 * q ≤ V.card + f) :
    ∃ A ⊆ V, ∃ B ⊆ V, q ≤ A.card ∧ q ≤ B.card ∧ (A ∩ B).card ≤ f := by
  obtain ⟨A, hAV, hA⟩ := Finset.exists_subset_card_eq hqV
  have hrest : (V \ A).card = V.card - q := by rw [Finset.card_sdiff_of_subset hAV, hA]
  obtain ⟨B, hrestB, hBV, hB⟩ := Finset.exists_subsuperset_card_eq (n := max q (V.card - q))
    (Finset.sdiff_subset (s := V) (t := A)) (by omega) (by omega)
  refine ⟨A, hAV, B, hBV, by omega, by omega, ?_⟩
  have hdisj : Disjoint (A ∩ B) (V \ A) :=
    Finset.disjoint_left.mpr fun v hv hv' =>
      (Finset.mem_sdiff.mp hv').2 (Finset.mem_inter.mp hv).1
  have hsub : (A ∩ B) ∪ (V \ A) ⊆ B :=
    Finset.union_subset Finset.inter_subset_right hrestB
  have hcard := Finset.card_le_card hsub
  rw [Finset.card_union_of_disjoint hdisj] at hcard
  omega

end Quorum
