import Mathlib.Data.Nat.Bitwise
import Mathlib.Data.Nat.Count

/-!
# Counting the bits of a word

`x & (x - 1)` is `x` without its lowest bit, so that the loop that goes from one to the other
until nothing is left makes as many turns as there are bits. The facts are about numbers; a
machine word is a number below a power of two, in which the same operations do not overflow.

`Nat.count` counts positions: the bits of `x` below `w` are `Nat.count (x.testBit ·) w`.
-/

namespace Bits

/-- Taking one off a number clears its lowest bit and sets those below, so that the bits the
two have in common are the others. -/
theorem exists_lowest {x : Nat} (hx : x ≠ 0) :
    ∃ k, x.testBit k = true ∧
      ∀ i, (x &&& (x - 1)).testBit i = (x.testBit i && decide (i ≠ k)) := by
  induction x using Nat.strong_induction_on with
  | _ x ih =>
    by_cases hodd : x % 2 = 1
    · -- An odd number loses its last bit.
      refine ⟨0, by rw [Nat.testBit_zero, hodd]; rfl, fun i => ?_⟩
      rw [Nat.testBit_and]
      cases i with
      | zero =>
        have heven : ¬ (x - 1) % 2 = 1 := by omega
        simp [heven]
      | succ i =>
        have hhalf : (x - 1) / 2 = x / 2 := by omega
        simp [Nat.testBit_add_one, hhalf]
    · -- An even one loses the bit that its half loses.
      obtain ⟨k, hk, hbits⟩ := ih (x / 2) (by omega) (by omega)
      refine ⟨k + 1, by rw [Nat.testBit_add_one]; exact hk, fun i => ?_⟩
      cases i with
      | zero =>
        rw [Nat.testBit_and, Nat.testBit_zero, Nat.testBit_zero]
        simp [hodd]
      | succ i =>
        have hhalf : (x - 1) / 2 = x / 2 - 1 := by omega
        have hand := hbits i
        rw [Nat.testBit_and] at hand ⊢
        rw [Nat.testBit_add_one, Nat.testBit_add_one, hhalf, hand]
        simp

theorem and_sub_one_lt {x : Nat} (hx : x ≠ 0) : x &&& (x - 1) < x := by
  have hle : x &&& (x - 1) ≤ x - 1 := Nat.and_le_right
  omega

/-- A number has one bit more than what is left of it. -/
theorem count_and_sub_one {x w : Nat} (hx : x ≠ 0) (hw : x < 2 ^ w) :
    Nat.count (fun i => x.testBit i = true) w =
      Nat.count (fun i => (x &&& (x - 1)).testBit i = true) w + 1 := by
  obtain ⟨k, hk, hbits⟩ := exists_lowest hx
  have hkw : k < w := by
    by_contra hge
    have hsmall : x < 2 ^ k :=
      Nat.lt_of_lt_of_le hw (Nat.pow_le_pow_right (by omega) (Nat.not_lt.mp hge))
    rw [Nat.testBit_lt_two_pow hsmall] at hk
    cases hk
  have herase : (Finset.range w).filter (fun i => (x &&& (x - 1)).testBit i = true) =
      ((Finset.range w).filter fun i => x.testBit i = true).erase k := by
    ext i
    simp only [Finset.mem_filter, Finset.mem_erase, hbits, Bool.and_eq_true, decide_eq_true_eq]
    tauto
  have hmem : k ∈ (Finset.range w).filter fun i => x.testBit i = true := by simp [hk, hkw]
  rw [Nat.count_eq_card_filter_range, Nat.count_eq_card_filter_range, herase,
    Finset.card_erase_add_one hmem]

end Bits
