import DagMempool.Lib.Heap
import Mathlib.Data.List.Perm.Basic

/-!
# The order of a heap

In a heap no element is before its parent. `push` breaks this at the element it moves
up, `pop` below the one it moves down; each loop keeps everything else in order, and
what the moved element leaves behind is in order across the place it was taken from.
So `pop` takes an element that no other is before, and popping until nothing is left
lists the elements in order.

All this is for a comparison under which "not before" is transitive, ties or not. Where
no two elements tie, the order is the only one there is.
-/

namespace Heap

open scoped List

variable {α : Type} {less : α → α → Bool}

/-- A comparison for sorting: `Less` of a strict weak order. -/
structure WeakOrder (less : α → α → Bool) : Prop where
  asymm : ∀ {a b : α}, less a b = true → less b a = false
  trans : ∀ {a b c : α}, less b a = false → less c b = false → less c a = false

/-! ## Comparing places -/

variable {h : Array α} {i j : Nat}

theorem lessAt_eq (hi : i < h.size) (hj : j < h.size) : lessAt less h i j = less h[i] h[j] := by
  simp [lessAt, hi, hj]

theorem lessAt_of_left (hi : h.size ≤ i) (j : Nat) : lessAt less h i j = false := by
  simp [lessAt, hi]

theorem lessAt_of_right (hj : h.size ≤ j) (i : Nat) : lessAt less h i j = false := by
  cases hi : h[i]? with
  | none => simp [lessAt, hi]
  | some a => simp [lessAt, hi, hj]

theorem WeakOrder.lessAt_asymm (hl : WeakOrder less) (hij : lessAt less h i j = true) :
    lessAt less h j i = false := by
  by_cases hi : i < h.size
  · by_cases hj : j < h.size
    · rw [lessAt_eq hi hj] at hij
      rw [lessAt_eq hj hi]
      exact hl.asymm hij
    · exact lessAt_of_left (Nat.not_lt.mp hj) i
  · exact lessAt_of_right (Nat.not_lt.mp hi) j

theorem WeakOrder.lessAt_trans (hl : WeakOrder less) {i j k : Nat} (hj : j < h.size)
    (hji : lessAt less h j i = false) (hkj : lessAt less h k j = false) :
    lessAt less h k i = false := by
  by_cases hk : k < h.size
  · by_cases hi : i < h.size
    · rw [lessAt_eq hj hi] at hji
      rw [lessAt_eq hk hj] at hkj
      rw [lessAt_eq hk hi]
      exact hl.trans hji hkj
    · exact lessAt_of_right (Nat.not_lt.mp hi) k
  · exact lessAt_of_left (Nat.not_lt.mp hk) i

/-- Where an element is after two places were exchanged. -/
def exchange (i j k : Nat) : Nat := if k = i then j else if k = j then i else k

theorem getElem?_swapIfInBounds (hi : i < h.size) (hj : j < h.size) (k : Nat) :
    (h.swapIfInBounds i j)[k]? = h[exchange i j k]? := by
  rw [Array.swapIfInBounds_def, dif_pos hi, dif_pos hj, Array.getElem?_swap, exchange]
  by_cases hki : k = i
  · subst hki
    by_cases hjk : j = k
    · simp [hjk]
    · simp [hjk, hj]
  · by_cases hkj : k = j
    · subst hkj
      simp [hki, hi]
    · simp [hki, hkj, Ne.symm hki, Ne.symm hkj]

theorem lessAt_swapIfInBounds (hi : i < h.size) (hj : j < h.size) (k l : Nat) :
    lessAt less (h.swapIfInBounds i j) k l =
      lessAt less h (exchange i j k) (exchange i j l) := by
  rw [lessAt, lessAt, getElem?_swapIfInBounds hi hj, getElem?_swapIfInBounds hi hj]

/-! ## The two loops -/

/-- The first `n` places are in heap order. -/
def Ordered (less : α → α → Bool) (n : Nat) (h : Array α) : Prop :=
  ∀ k, 0 < k → k < n → lessAt less h k ((k - 1) / 2) = false

/-- In order, but for an element that may be before its parent. -/
structure OrderedAbove (less : α → α → Bool) (h : Array α) (j : Nat) : Prop where
  off : ∀ k, 0 < k → k < h.size → k ≠ j → lessAt less h k ((k - 1) / 2) = false
  across : ∀ k, 0 < k → k < h.size → (k - 1) / 2 = j → 0 < j →
    lessAt less h k ((j - 1) / 2) = false

/-- In order among the first `n` places, but for an element that may be after its
children. -/
structure OrderedBelow (less : α → α → Bool) (n : Nat) (h : Array α) (i : Nat) : Prop where
  off : ∀ k, 0 < k → k < n → (k - 1) / 2 ≠ i → lessAt less h k ((k - 1) / 2) = false
  across : ∀ k, 0 < k → k < n → (k - 1) / 2 = i → 0 < i →
    lessAt less h k ((i - 1) / 2) = false

theorem OrderedAbove.swap (hl : WeakOrder less) (ho : OrderedAbove less h j) (hj : j < h.size)
    (hpos : 0 < j) (hless : lessAt less h j ((j - 1) / 2) = true) :
    OrderedAbove less (h.swapIfInBounds ((j - 1) / 2) j) ((j - 1) / 2) := by
  have hparent : (j - 1) / 2 < j := by omega
  generalize hi : (j - 1) / 2 = i at hless hparent
  have hsize : i < h.size := Nat.lt_trans hparent hj
  have hrev := hl.lessAt_asymm hless
  constructor
  · intro k hk hkn hki
    rw [Array.size_swapIfInBounds] at hkn
    rw [lessAt_swapIfInBounds hsize hj]
    have hold := ho.off k hk hkn
    by_cases hkj : k = j
    · rw [hkj, hi, exchange, exchange, if_neg (by omega), if_pos rfl, if_pos rfl]
      exact hrev
    · rw [exchange, if_neg hki, if_neg hkj, exchange]
      by_cases hpi : (k - 1) / 2 = i
      · rw [if_pos hpi]
        rw [hpi] at hold
        exact hl.lessAt_trans hsize hrev (hold hkj)
      · rw [if_neg hpi]
        by_cases hpj : (k - 1) / 2 = j
        · rw [if_pos hpj, ← hi]
          exact ho.across k hk hkn hpj hpos
        · rw [if_neg hpj]
          exact hold hkj
  · intro k hk hkn hpk hipos
    rw [Array.size_swapIfInBounds] at hkn
    rw [lessAt_swapIfInBounds hsize hj]
    have htop := ho.off i hipos hsize (by omega)
    have hfar : exchange i j ((i - 1) / 2) = (i - 1) / 2 := by
      rw [exchange, if_neg (by omega), if_neg (by omega)]
    rw [hfar]
    by_cases hkj : k = j
    · rw [hkj, exchange, if_neg (by omega), if_pos rfl]
      exact htop
    · have hold := ho.off k hk hkn hkj
      rw [hpk] at hold
      rw [exchange, if_neg (by omega), if_neg hkj]
      exact hl.lessAt_trans hsize htop hold

theorem up_ordered (hl : WeakOrder less) (fuel : Nat) (hj : j < h.size) (hfuel : j < fuel)
    (ho : OrderedAbove less h j) : Ordered less h.size (up less fuel h j) := by
  induction fuel generalizing h j with
  | zero => omega
  | succ fuel ih =>
    rw [up]
    split
    · next hstop =>
        intro k hk hkn
        by_cases hkj : k = j
        · subst hkj
          rcases hstop with hroot | hless
          · omega
          · exact hless
        · exact ho.off k hk hkn hkj
    · next hgo =>
        have hless : lessAt less h j ((j - 1) / 2) = true := by
          by_contra hno
          exact hgo (.inr (by simpa using hno))
        have hnext := ih (h := h.swapIfInBounds ((j - 1) / 2) j) (j := (j - 1) / 2)
          (by rw [Array.size_swapIfInBounds]; omega) (by omega)
          (ho.swap hl hj (by omega) hless)
        rwa [Array.size_swapIfInBounds] at hnext

theorem OrderedBelow.swap (hl : WeakOrder less) {n : Nat} (ho : OrderedBelow less n h i)
    (hn : n ≤ h.size) (hj : j < n) (hchild : (j - 1) / 2 = i) (hpos : 0 < j)
    (hless : lessAt less h j i = true)
    (hfirst : ∀ k, 0 < k → k < n → (k - 1) / 2 = i → lessAt less h k j = false) :
    OrderedBelow less n (h.swapIfInBounds i j) j := by
  have hij : i < j := by omega
  have hsize : j < h.size := Nat.lt_of_lt_of_le hj hn
  have hsize' : i < h.size := Nat.lt_trans hij hsize
  have hrev := hl.lessAt_asymm hless
  constructor
  · intro k hk hkn hpk
    rw [lessAt_swapIfInBounds hsize' hsize]
    by_cases hki : k = i
    · have hup : exchange i j ((k - 1) / 2) = (i - 1) / 2 := by
        rw [exchange, if_neg (by omega), if_neg (by omega), hki]
      rw [hup, hki, exchange, if_pos rfl]
      exact ho.across j hpos hj hchild (by omega)
    · rw [exchange, if_neg hki]
      by_cases hpi : (k - 1) / 2 = i
      · rw [hpi, exchange, if_pos rfl]
        split
        · exact hrev
        · exact hfirst k hk hkn hpi
      · rw [if_neg (by omega), exchange, if_neg hpi, if_neg hpk]
        exact ho.off k hk hkn hpi
  · intro k hk hkn hpk hjpos
    rw [lessAt_swapIfInBounds hsize' hsize, hchild, exchange, if_neg (by omega),
      if_neg (by omega), exchange, if_pos rfl]
    have hold := ho.off k hk hkn (by omega)
    rwa [hpk] at hold

theorem down_ordered (hl : WeakOrder less) (n fuel : Nat) (hn : n ≤ h.size) (hfuel : n < i + fuel)
    (ho : OrderedBelow less n h i) : Ordered less n (down less n fuel h i) := by
  induction fuel generalizing h i with
  | zero =>
    intro k hk hkn
    exact ho.off k hk hkn (by omega)
  | succ fuel ih =>
    rw [down]
    split
    · intro k hk hkn
      exact ho.off k hk hkn (by omega)
    · dsimp only
      generalize hj : (if 2 * i + 1 + 1 < n ∧
        lessAt less h (2 * i + 1 + 1) (2 * i + 1) = true then 2 * i + 1 + 1
        else 2 * i + 1) = j
      -- The child that no other child is before.
      have hchild : (j - 1) / 2 = i ∧ 0 < j ∧ j < n := by
        rw [← hj]
        split <;> omega
      have hfirst : ∀ k, 0 < k → k < n → (k - 1) / 2 = i → lessAt less h k j = false := by
        intro k hk hkn hpk
        have hirrefl : ∀ l, lessAt less h l l = false := by
          intro l
          by_contra hll
          have := hl.lessAt_asymm (by simpa using hll : lessAt less h l l = true)
          exact hll this
        have hcases : k = 2 * i + 1 ∨ k = 2 * i + 1 + 1 := by omega
        rw [← hj]
        split
        · next hsecond =>
            rcases hcases with rfl | rfl
            · exact hl.lessAt_asymm hsecond.2
            · exact hirrefl _
        · next hsecond =>
            rcases hcases with rfl | rfl
            · exact hirrefl _
            · by_contra hlt
              exact hsecond ⟨hkn, by simpa using hlt⟩
      split
      · next hstop =>
          intro k hk hkn
          by_cases hpk : (k - 1) / 2 = i
          · rw [hpk]
            exact hl.lessAt_trans (by omega) hstop (hfirst k hk hkn hpk)
          · exact ho.off k hk hkn hpk
      · next hgo =>
          refine ih (by rwa [Array.size_swapIfInBounds]) (by omega) ?_
          exact ho.swap hl hn hchild.2.2 hchild.1 hchild.2.1 (by simpa using hgo) hfirst

/-- The loop down stays among the first `n` places. -/
theorem getElem?_down (n fuel : Nat) (h : Array α) {i k : Nat} (hn : n ≤ h.size) (hi : i < n)
    (hk : n ≤ k) : (down less n fuel h i)[k]? = h[k]? := by
  induction fuel generalizing h i with
  | zero => rfl
  | succ fuel ih =>
    rw [down]
    split
    · rfl
    · dsimp only
      generalize hj : (if 2 * i + 1 + 1 < n ∧
        lessAt less h (2 * i + 1 + 1) (2 * i + 1) = true then 2 * i + 1 + 1
        else 2 * i + 1) = j
      have hjn : j < n := by
        rw [← hj]
        split <;> omega
      split
      · rfl
      · rw [ih _ (by rwa [Array.size_swapIfInBounds]) hjn,
          getElem?_swapIfInBounds (by omega) (by omega), exchange, if_neg (by omega),
          if_neg (by omega)]

theorem size_down (n fuel : Nat) (h : Array α) (i : Nat) :
    (down less n fuel h i).size = h.size := by
  have hperm : (down less n fuel h i).toList ~ h.toList := down_perm n fuel h i
  simpa using hperm.length_eq

/-! ## Push and pop -/

theorem push_ordered (hl : WeakOrder less) (ho : Ordered less h.size h) (x : α) :
    Ordered less (push less h x).size (push less h x) := by
  have hkeep : ∀ {k l : Nat}, k < h.size → l < h.size →
      lessAt less (h.push x) k l = lessAt less h k l := by
    intro k l hk hl
    rw [lessAt_eq hk hl, lessAt_eq (by simp; omega) (by simp; omega), Array.getElem_push_lt hk,
      Array.getElem_push_lt hl]
  rw [size_push, ← Array.size_push]
  refine up_ordered hl (h.size + 1) (by simp) (by omega)
    ⟨fun k hk hkn hne => ?_, fun k hk hkn hpk => ?_⟩
  · rw [Array.size_push] at hkn
    rw [hkeep (by omega) (by omega)]
    exact ho k hk (by omega)
  · rw [Array.size_push] at hkn
    omega

theorem Ordered.top (hl : WeakOrder less) (ho : Ordered less h.size h) (k : Nat) :
    lessAt less h k 0 = false := by
  induction k using Nat.strongRecOn with
  | ind k ih =>
    by_cases hk : k < h.size
    · by_cases hpos : 0 < k
      · exact hl.lessAt_trans (by omega) (ih ((k - 1) / 2) (by omega)) (ho k hpos hk)
      · obtain rfl : k = 0 := by omega
        by_contra hself
        exact hself (hl.lessAt_asymm (by simpa using hself))
    · exact lessAt_of_left (Nat.not_lt.mp hk) 0

theorem pop_below (ho : Ordered less h.size h) (hpos : 0 < h.size) :
    OrderedBelow less (h.size - 1) (h.swapIfInBounds 0 (h.size - 1)) 0 := by
  refine ⟨fun k hk hkn hpk => ?_, fun k hk hkn hpk h0 => absurd h0 (Nat.lt_irrefl 0)⟩
  rw [lessAt_swapIfInBounds hpos (by omega), exchange, if_neg (by omega), if_neg (by omega),
    exchange, if_neg hpk, if_neg (by omega)]
  exact ho k hk (by omega)

variable (less) in
theorem pop_eq (hpos : 0 < h.size) :
    pop less h = some (h[0], (down less (h.size - 1) h.size
      (h.swapIfInBounds 0 (h.size - 1)) 0).pop) := by
  have hlast : (down less (h.size - 1) h.size (h.swapIfInBounds 0 (h.size - 1)) 0).back? =
      some h[0] := by
    rw [Array.back?_eq_getElem?, size_down, Array.size_swapIfInBounds]
    by_cases hone : h.size = 1
    · have hswap : (h.swapIfInBounds 0 (h.size - 1))[h.size - 1]? = some h[0] := by
        rw [getElem?_swapIfInBounds hpos (by omega), exchange]
        simp [hone]
      rw [← hswap]
      congr 1
      rw [hone]
      rfl
    · rw [getElem?_down _ _ _ (by rw [Array.size_swapIfInBounds]; omega) (by omega)
        (Nat.le_refl _), getElem?_swapIfInBounds hpos (by omega), exchange, if_neg (by omega),
        if_pos rfl]
      simp [hpos]
  rw [pop, hlast]

theorem pop_eq_none_iff : pop less h = none ↔ h.size = 0 := by
  constructor
  · intro hnone
    by_contra hne
    rw [pop_eq less (Nat.pos_of_ne_zero hne)] at hnone
    cases hnone
  · intro hzero
    obtain rfl := Array.size_eq_zero_iff.mp hzero
    rfl

theorem size_pop {h rest : Array α} {x : α} (hpop : pop less h = some (x, rest)) :
    h.size = rest.size + 1 := by
  simpa using (pop_perm hpop).length_eq

/-- An element is taken that no other is before, and the rest is in order again. -/
theorem pop_ordered (hl : WeakOrder less) {h rest : Array α} {x : α}
    (ho : Ordered less h.size h) (hpop : pop less h = some (x, rest)) :
    (∀ y ∈ h.toList, less y x = false) ∧ Ordered less rest.size rest := by
  have hpos : 0 < h.size := by
    have := size_pop hpop
    omega
  rw [pop_eq less hpos] at hpop
  obtain ⟨rfl, rfl⟩ := Prod.mk.inj (Option.some.inj hpop)
  constructor
  · intro y hy
    obtain ⟨k, hk, rfl⟩ := List.mem_iff_getElem.mp hy
    have htop := ho.top hl k
    rw [lessAt_eq (by simpa using hk) hpos] at htop
    simpa using htop
  · have hdown := down_ordered hl (h.size - 1) h.size
      (by rw [Array.size_swapIfInBounds]; omega) (by omega) (pop_below ho hpos)
    generalize hh : down less (h.size - 1) h.size (h.swapIfInBounds 0 (h.size - 1)) 0 = h'
      at hdown
    have hsize : h'.size = h.size := by rw [← hh, size_down, Array.size_swapIfInBounds]
    intro k hk hkn
    rw [Array.size_pop] at hkn
    have hold := hdown k hk (by omega)
    rw [lessAt_eq (by omega) (by omega)] at hold
    rw [lessAt_eq (by rw [Array.size_pop]; omega) (by rw [Array.size_pop]; omega)]
    simpa using hold

/-! ## All elements in order -/

/-- The elements popped until none is left. -/
def drain (less : α → α → Bool) : Nat → Array α → List α
  | 0, _ => []
  | fuel + 1, h =>
    match pop less h with
    | none => []
    | some (x, rest) => x :: drain less fuel rest

/-- The elements of a heap, in order. -/
def sorted (less : α → α → Bool) (h : Array α) : List α := drain less h.size h

theorem sorted_of_pop {h rest : Array α} {x : α} (hpop : pop less h = some (x, rest)) :
    sorted less h = x :: sorted less rest := by
  rw [sorted, size_pop hpop, drain, hpop]
  rfl

theorem sorted_of_empty (hsize : h.size = 0) : sorted less h = [] := by
  rw [sorted, hsize]
  rfl

variable (less) in
theorem pop_induction {motive : Array α → Prop} (empty : ∀ h : Array α, h.size = 0 → motive h)
    (pop : ∀ (h rest : Array α) (x : α), pop less h = some (x, rest) → motive rest → motive h)
    (h : Array α) : motive h := by
  induction hn : h.size generalizing h with
  | zero => exact empty h hn
  | succ n ih =>
    have hpop := pop_eq less (h := h) (by omega)
    have hsize := size_pop hpop
    exact pop h _ _ hpop (ih _ (by omega))

theorem sorted_perm (h : Array α) : sorted less h ~ h.toList := by
  induction h using pop_induction less with
  | empty h hsize =>
    rw [sorted_of_empty hsize, Array.size_eq_zero_iff.mp hsize]
  | pop h rest x hpop ih =>
    rw [sorted_of_pop hpop]
    exact (ih.cons x).trans (pop_perm hpop).symm

theorem sorted_pairwise (hl : WeakOrder less) (ho : Ordered less h.size h) :
    (sorted less h).Pairwise fun a b => less b a = false := by
  induction h using pop_induction less with
  | empty h hsize =>
    rw [sorted_of_empty hsize]
    exact List.Pairwise.nil
  | pop h rest x hpop ih =>
    obtain ⟨hfirst, hrest⟩ := pop_ordered hl ho hpop
    rw [sorted_of_pop hpop]
    refine List.Pairwise.cons (fun y hy => hfirst y ?_) (ih hrest)
    rw [(pop_perm hpop).mem_iff]
    exact List.mem_cons_of_mem x ((sorted_perm rest).mem_iff.mp hy)

/-- Where no two elements tie there is one order. -/
theorem eq_sorted (hl : WeakOrder less) (ho : Ordered less h.size h) {l : List α}
    (hperm : l ~ h.toList) (hsorted : l.Pairwise fun a b => less b a = false)
    (htie : ∀ a ∈ l, ∀ b ∈ l, less a b = false → less b a = false → a = b) : l = sorted less h := by
  have hall : l ~ sorted less h := hperm.trans (sorted_perm h).symm
  refine List.Perm.eq_of_pairwise (fun a b ha hb hab hba => ?_) hsorted (sorted_pairwise hl ho)
    hall
  exact htie a ha b (hall.mem_iff.mpr hb) hba hab

end Heap
