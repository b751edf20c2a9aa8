import Mathlib.Algebra.GroupWithZero.Nat
import Mathlib.Algebra.Order.BigOperators.Group.List
import Mathlib.Algebra.Order.Group.Nat
import Mathlib.Data.List.Basic
import Mathlib.Data.List.Nodup
import Mathlib.Data.Nat.Find

/-!
# First occurrences, and prefixes within a budget

Two ways to shorten a list that a loop with an accumulator computes. `firsts`
keeps the first element with each key. `longest` is the longest prefix whose
sizes add up to at most a budget, except that one element is always taken.

A loop that adds sizes up as it goes stops at the first element that does not
fit. Since sizes are not negative, what it has taken until then is the longest
prefix that fits: `longest_cons` says so, with `within` for the loop.
-/

namespace Prefix

variable {α K : Type}

/-! ## First occurrences -/

variable {a : α} (key : α → K) {l : List α} (p : α → Bool) (size : α → Nat) (budget : Int)

section

variable [DecidableEq K]

/-- The elements before which no other has the same key. -/
def firsts (key : α → K) : List α → List α
  | [] => []
  | a :: l => a :: (firsts key l).filter fun b => decide (key b ≠ key a)

theorem firsts_sublist (l : List α) : (firsts key l).Sublist l := by
  induction l with
  | nil => exact .slnil
  | cons a l ih => exact (List.filter_sublist.trans ih).cons_cons a

theorem exists_mem_firsts (h : a ∈ l) : ∃ b ∈ firsts key l, key b = key a := by
  induction l with
  | nil => cases h
  | cons c l ih =>
    by_cases hc : key c = key a
    · exact ⟨c, List.mem_cons_self, hc⟩
    · obtain ⟨b, hb, hkey⟩ := ih ((List.mem_cons.mp h).resolve_left fun he => hc (he ▸ rfl))
      refine ⟨b, List.mem_cons_of_mem _ (List.mem_filter.mpr ⟨hb, ?_⟩), hkey⟩
      exact decide_eq_true fun he => hc (he.symm.trans hkey)

theorem nodup_firsts (l : List α) : ((firsts key l).map key).Nodup := by
  induction l with
  | nil => exact List.nodup_nil
  | cons a l ih =>
    rw [firsts, List.map_cons, List.nodup_cons]
    refine ⟨?_, ih.sublist (List.filter_sublist.map key)⟩
    intro hmem
    obtain ⟨b, hb, hkey⟩ := List.mem_map.mp hmem
    have hne : key b ≠ key a := by simpa using (List.mem_filter.mp hb).2
    exact hne hkey

/-- The first occurrences that are not among some keys: an element whose key is among
them is passed over. -/
theorem filter_firsts_of_mem {key : α → K} {seen : List K} (h : key a ∈ seen) (l : List α) :
    (firsts key (a :: l)).filter (fun b => decide (key b ∉ seen)) =
      (firsts key l).filter fun b => decide (key b ∉ seen) := by
  rw [firsts, List.filter_cons_of_neg (by simpa using h), List.filter_filter]
  refine List.filter_congr fun b _ => ?_
  by_cases hb : key b ∈ seen
  · simp [hb]
  · have hne : key b ≠ key a := fun he => hb (he ▸ h)
    simp [hb, hne]

/-- An element whose key is not among them comes first, and its key joins them. -/
theorem filter_firsts_of_notMem {key : α → K} {seen : List K} (h : key a ∉ seen) (l : List α) :
    (firsts key (a :: l)).filter (fun b => decide (key b ∉ seen)) =
      a :: (firsts key l).filter fun b => decide (key b ∉ key a :: seen) := by
  rw [firsts, List.filter_cons_of_pos (by simpa using h), List.filter_filter]
  congr 1
  refine List.filter_congr fun b _ => ?_
  simp only [List.mem_cons, not_or, Bool.decide_and, Bool.and_comm]

end

/-! ## Picking -/

/-- The first `n` with a property, and the others. -/
def pick (p : α → Bool) : List α → Nat → List α × List α
  | [], _ => ([], [])
  | a :: l, 0 => ([], a :: l)
  | a :: l, n + 1 =>
    if p a then (a :: (pick p l n).1, (pick p l n).2)
    else ((pick p l (n + 1)).1, a :: (pick p l (n + 1)).2)

theorem pick_zero (l : List α) : pick p l 0 = ([], l) := by
  cases l <;> rfl

theorem pick_cons (a : α) (l : List α) (n : Nat) :
    pick p (a :: l) n =
      if 0 < n && p a then (a :: (pick p l (n - 1)).1, (pick p l (n - 1)).2)
      else ((pick p l n).1, a :: (pick p l n).2) := by
  cases n with
  | zero => simp [pick, pick_zero]
  | succ n => simp [pick]

theorem pick_fst (l : List α) (n : Nat) : (pick p l n).1 = (l.filter p).take n := by
  induction l generalizing n with
  | nil => simp [pick]
  | cons a l ih =>
    cases n with
    | zero => simp [pick]
    | succ n =>
      rw [pick]
      split
      · next hp => rw [List.filter_cons_of_pos hp, List.take_succ_cons, ih]
      · next hp => rw [List.filter_cons_of_neg hp, ih]

theorem pick_perm (l : List α) (n : Nat) : ((pick p l n).1 ++ (pick p l n).2).Perm l := by
  induction l generalizing n with
  | nil => exact .refl _
  | cons a l ih =>
    cases n with
    | zero => exact .refl _
    | succ n =>
      rw [pick]
      split
      · exact (ih n).cons a
      · exact List.perm_middle.trans ((ih (n + 1)).cons a)

/-- Of different elements, the others are those not picked, in their order. -/
theorem pick_snd [DecidableEq α] (h : l.Nodup) (n : Nat) :
    (pick p l n).2 = l.filter fun a => decide (a ∉ (l.filter p).take n) := by
  induction l generalizing n with
  | nil => rfl
  | cons a l ih =>
    obtain ⟨ha, hl⟩ := List.nodup_cons.mp h
    have hout : ∀ k, a ∉ (l.filter p).take k := fun k hk =>
      ha (List.mem_of_mem_filter (List.mem_of_mem_take hk))
    cases n with
    | zero => simp [pick]
    | succ n =>
      rw [pick]
      split
      · next hp =>
          rw [List.filter_cons_of_pos hp, List.take_succ_cons,
            List.filter_cons_of_neg (by simp), ih hl]
          refine List.filter_congr fun b hb => ?_
          have hne : b ≠ a := by
            rintro rfl
            exact ha hb
          simp [hne]
      · next hp =>
          rw [List.filter_cons_of_neg hp, List.filter_cons_of_pos (by simpa using hout (n + 1)),
            ih hl]

/-! ## Budgets -/

def total (size : α → Nat) (l : List α) : Nat := (l.map size).sum

theorem total_cons (a : α) (l : List α) : total size (a :: l) = size a + total size l := by
  simp [total]

theorem total_append (l l' : List α) : total size (l ++ l') = total size l + total size l' := by
  simp [total]

theorem total_le_of_sublist {l l' : List α} (h : l.Sublist l') : total size l ≤ total size l' :=
  (h.map size).sum_le_sum fun _ _ => Nat.zero_le _

theorem total_of_perm {l l' : List α} (h : l.Perm l') : total size l = total size l' :=
  (h.map size).sum_eq

theorem lt_ofNat_add_iff {limit : Int64} {used size : Nat} (h : used + size < 2 ^ 63) :
    limit < Int64.ofNat used + Int64.ofNat size ↔ ¬ ((used + size : Nat) : Int) ≤ limit.toInt := by
  rw [← Int64.ofNat_add, Int64.lt_iff_toInt_lt, Int64.toInt_ofNat_of_lt h]
  omega

/-- The longest prefix that has at most one element or fits into the budget. -/
def longest (size : α → Nat) (budget : Int) (l : List α) : List α :=
  l.take (Nat.findGreatest
    (fun n => n ≤ 1 ∨ (total size (l.take n) : Int) ≤ budget) l.length)

theorem longest_prefix_longest {budget budget' : Int} (h : budget ≤ budget') (l : List α) :
    longest size budget l <+: longest size budget' l := by
  refine List.take_prefix_take_left (Nat.findGreatest_mono_left (fun n hn => ?_) _)
  rcases hn with hone | hfits
  · exact .inl hone
  · exact .inr (Int.le_trans hfits h)

theorem longest_prefix (l : List α) : longest size budget l <+: l :=
  List.take_prefix _ _

theorem longest_eq_self {budget : Int} (h : (total size l : Int) ≤ budget) :
    longest size budget l = l := by
  have hall : l.length ≤ 1 ∨ (total size (l.take l.length) : Int) ≤ budget := by
    rw [List.take_length]
    exact .inr h
  rw [longest, Nat.findGreatest_eq hall, List.take_length]

theorem longest_eq_self_iff {budget : Int} :
    longest size budget l = l ↔ l.length ≤ 1 ∨ (total size l : Int) ≤ budget := by
  constructor
  · intro h
    have hspec := Nat.findGreatest_spec
      (P := fun n => n ≤ 1 ∨ (total size (l.take n) : Int) ≤ budget) (Nat.zero_le l.length)
      (.inl (Nat.zero_le 1))
    rw [longest, List.take_eq_self_iff] at h
    rw [Nat.le_antisymm (Nat.findGreatest_le _) h, List.take_length] at hspec
    exact hspec
  · rintro (hone | hfits)
    · rw [longest, Nat.findGreatest_eq (.inl hone), List.take_length]
    · exact longest_eq_self size hfits

/-- What a loop takes that stops at the first element that does not fit, when it has
used up some of the budget. -/
def within (size : α → Nat) (budget : Int) : Nat → List α → List α
  | _, [] => []
  | used, a :: l =>
    if (used + size a : Nat) ≤ budget then a :: within size budget (used + size a) l else []

theorem findGreatest_succ_of_one {P : Nat → Prop} [DecidablePred P] (h : P 1) (n : Nat) :
    Nat.findGreatest P (n + 1) = Nat.findGreatest (fun k => P (k + 1)) n + 1 := by
  induction n with
  | zero => rw [Nat.findGreatest_eq h, Nat.findGreatest_zero]
  | succ n ih =>
    by_cases hP : P (n + 1 + 1)
    · rw [Nat.findGreatest_eq hP, Nat.findGreatest_eq (P := fun k => P (k + 1)) hP]
    · rw [Nat.findGreatest_of_not hP, ih,
        Nat.findGreatest_of_not (P := fun k => P (k + 1)) hP]

theorem findGreatest_congr_pos {P Q : Nat → Prop} [DecidablePred P] [DecidablePred Q]
    (h : ∀ k, 0 < k → (P k ↔ Q k)) (n : Nat) :
    Nat.findGreatest P n = Nat.findGreatest Q n := by
  induction n with
  | zero => rfl
  | succ n ih =>
    by_cases hP : P (n + 1)
    · rw [Nat.findGreatest_eq hP, Nat.findGreatest_eq ((h _ n.succ_pos).mp hP)]
    · rw [Nat.findGreatest_of_not hP, ih,
        Nat.findGreatest_of_not fun hQ => hP ((h _ n.succ_pos).mpr hQ)]

/-- The loop takes the longest prefix that fits. -/
theorem within_eq_take (used : Nat) (l : List α) :
    within size budget used l = l.take (Nat.findGreatest
      (fun n => ((used + total size (l.take n) : Nat) : Int) ≤ budget) l.length) := by
  induction l generalizing used with
  | nil => rfl
  | cons a l ih =>
    rw [within]
    split
    · next hfits =>
        rw [List.length_cons, findGreatest_succ_of_one (by simpa [total] using hfits),
          List.take_succ_cons, ih]
        simp only [List.take_succ_cons, total_cons, Nat.add_assoc]
    · next hfull =>
        have hzero : Nat.findGreatest
            (fun n => ((used + total size ((a :: l).take n) : Nat) : Int) ≤ budget)
            (a :: l).length = 0 := by
          rw [Nat.findGreatest_eq_zero_iff]
          intro n hpos _ hn
          obtain ⟨n, rfl⟩ := Nat.exists_eq_succ_of_ne_zero (Nat.pos_iff_ne_zero.mp hpos)
          rw [List.take_succ_cons, total_cons] at hn
          exact hfull (by omega)
        rw [hzero, List.take_zero]

/-- One element is taken whatever its size, and after it what fits. -/
theorem longest_cons (a : α) (l : List α) :
    longest size budget (a :: l) = a :: within size budget (size a) l := by
  rw [longest, List.length_cons, findGreatest_succ_of_one (.inl (Nat.le_refl 1)),
    List.take_succ_cons, within_eq_take]
  congr 2
  refine findGreatest_congr_pos (fun k hk => ?_) _
  rw [List.take_succ_cons, total_cons]
  constructor
  · rintro (hone | hfits)
    · omega
    · exact hfits
  · exact .inr

end Prefix
