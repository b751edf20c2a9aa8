import Mathlib.Data.Fintype.Card
import DagMempool.Lib.Quorum
import DagMempool.Types.Ideal

/-!
# Which validator counts have intersecting quorums

`F` is `(n - 1) / 3` rounded down and `Quorum` is `2F + 1`. The general bound for
`n` members asks `n + F < 2 * Quorum`, which with these two reads `n ≤ 3F + 1`;
rounding down gives `3F + 1 ≤ n` anyway, so the bound holds exactly when
`n = 3F + 1`. For the counts in between, such as two or three validators, `F` does
not grow with `n` and `Quorum` stays behind: two quorums may meet in `F` members
or in none.
-/

namespace DagMempool

variable {vs : SimpleValidatorSet}

theorem count_add_f_lt_iff (hn : 1 ≤ vs.count) :
    vs.count + vs.f < 2 * vs.quorum ↔ vs.count % 3 = 1 := by
  have hf : vs.f = (vs.count - 1) / 3 := rfl
  have hq : vs.quorum = 2 * vs.f + 1 := rfl
  omega

theorem quorum_le_count (hn : 1 ≤ vs.count) : vs.quorum ≤ vs.count := by
  have hf : vs.f = (vs.count - 1) / 3 := rfl
  have hq : vs.quorum = 2 * vs.f + 1 := rfl
  omega

/-- Every two quorums share `F + 1` validators. -/
def QuorumsOverlap (vs : SimpleValidatorSet) : Prop :=
  ∀ A B : Finset (Fin vs.count), vs.quorum ≤ A.card → vs.quorum ≤ B.card →
    vs.f + 1 ≤ (A ∩ B).card

/-- Every two quorums share an honest validator, whichever `F` are Byzantine. -/
def QuorumsShareHonest (vs : SimpleValidatorSet) : Prop :=
  ∀ A B Byz : Finset (Fin vs.count), vs.quorum ≤ A.card → vs.quorum ≤ B.card →
    Byz.card ≤ vs.f → ∃ v, v ∈ A ∧ v ∈ B ∧ v ∉ Byz

theorem QuorumsOverlap.shareHonest (h : QuorumsOverlap vs) : QuorumsShareHonest vs := by
  intro A B Byz hA hB hByz
  obtain ⟨v, hv, hvByz⟩ := Quorum.exists_not_mem (h A B hA hB) hByz
  obtain ⟨hvA, hvB⟩ := Finset.mem_inter.mp hv
  exact ⟨v, hvA, hvB, hvByz⟩

theorem quorumsOverlap_of_mod (hn : 1 ≤ vs.count) (h : vs.count % 3 = 1) :
    QuorumsOverlap vs := by
  intro A B hA hB
  refine Quorum.card_inter_gt (V := Finset.univ) (Finset.subset_univ _)
    (Finset.subset_univ _) hA hB ?_
  rw [Finset.card_univ, Fintype.card_fin]
  exact (count_add_f_lt_iff hn).mpr h

theorem mod_of_quorumsShareHonest (hn : 1 ≤ vs.count) (h : QuorumsShareHonest vs) :
    vs.count % 3 = 1 := by
  by_contra hmod
  have hbound : ¬ vs.count + vs.f < 2 * vs.quorum := fun hlt =>
    hmod ((count_add_f_lt_iff hn).mp hlt)
  have hcard : (Finset.univ : Finset (Fin vs.count)).card = vs.count := by
    rw [Finset.card_univ, Fintype.card_fin]
  obtain ⟨A, -, B, -, hA, hB, hAB⟩ :=
    Quorum.exists_small_inter (V := (Finset.univ : Finset (Fin vs.count)))
      (q := vs.quorum) (f := vs.f) (by rw [hcard]; exact quorum_le_count hn)
      (by rw [hcard]; omega)
  obtain ⟨v, hvA, hvB, hv⟩ := h A B (A ∩ B) hA hB hAB
  exact hv (Finset.mem_inter.mpr ⟨hvA, hvB⟩)

/-- Quorums intersect as the protocol needs exactly for `n = 3F + 1`, and
`HasQuorum` asks for the same number of votes as `Quorum`. -/
theorem quorum_intersection_iff (vs : SimpleValidatorSet) (hn : 1 ≤ vs.count) :
    (QuorumsOverlap vs ↔ vs.count % 3 = 1) ∧
    (QuorumsShareHonest vs ↔ vs.count % 3 = 1) ∧
    ∀ c : Certificate, c.hasQuorum vs.count = true ↔ vs.quorum ≤ c.votes.length := by
  refine ⟨⟨fun h => ?_, quorumsOverlap_of_mod hn⟩,
    ⟨mod_of_quorumsShareHonest hn, fun h => ?_⟩, fun c => decide_eq_true_iff⟩
  · exact mod_of_quorumsShareHonest hn h.shareHonest
  · exact (quorumsOverlap_of_mod hn h).shareHonest

theorem quorum_intersection_four :
    QuorumsOverlap (idealValidators 4 0) ∧ QuorumsShareHonest (idealValidators 4 0) := by
  have h := quorum_intersection_iff (idealValidators 4 0) (by simp)
  exact ⟨h.1.mpr (by simp), h.2.1.mpr (by simp)⟩

/-- With two validators none may be Byzantine and a quorum is one of them, so the
two quorums of one have nothing in common. -/
theorem two_validators_disjoint_quorums :
    (idealValidators 2 0).count = 2 ∧ (idealValidators 2 0).f = 0 ∧
      (∃ A B : Finset (Fin (idealValidators 2 0).count),
        (idealValidators 2 0).quorum ≤ A.card ∧ (idealValidators 2 0).quorum ≤ B.card ∧
        (A ∩ B).card = 0) ∧
      ¬ QuorumsOverlap (idealValidators 2 0) ∧
      ¬ QuorumsShareHonest (idealValidators 2 0) := by
  have hmod : ¬ (idealValidators 2 0).count % 3 = 1 := by decide
  have hhonest : ¬ QuorumsShareHonest (idealValidators 2 0) := fun h =>
    hmod (mod_of_quorumsShareHonest (by decide) h)
  refine ⟨by decide, by decide, ?_, fun h => hhonest h.shareHonest, hhonest⟩
  have h0 : 0 < (idealValidators 2 0).count := by decide
  have h1 : 1 < (idealValidators 2 0).count := by decide
  exact ⟨{⟨0, h0⟩}, {⟨1, h1⟩}, by decide +revert, by decide +revert, by decide +revert⟩

end DagMempool
