import Mathlib.Data.List.Basic

/-!
# `container/heap`

A binary heap in a slice, for any comparison: `push` appends and moves the new
element up, `pop` exchanges the first element with the last, moves it down in
what remains, and takes the last off. The loops run on fuel, of which the length
of the slice is enough, since each turn moves the index along one path of the
tree.
-/

namespace Heap

variable {α : Type}

/-- `h.Less(i, j)`, false where an index is out of range. -/
def lessAt (less : α → α → Bool) (h : Array α) (i j : Nat) : Bool :=
  match h[i]?, h[j]? with
  | some a, some b => less a b
  | _, _ => false

def up (less : α → α → Bool) : Nat → Array α → Nat → Array α
  | 0, h, _ => h
  | fuel + 1, h, j =>
    let i := (j - 1) / 2
    if i = j ∨ lessAt less h j i = false then h
    else up less fuel (h.swapIfInBounds i j) i

def down (less : α → α → Bool) (n : Nat) : Nat → Array α → Nat → Array α
  | 0, h, _ => h
  | fuel + 1, h, i =>
    let j₁ := 2 * i + 1
    if n ≤ j₁ then h
    else
      let j₂ := j₁ + 1
      let j := if j₂ < n ∧ lessAt less h j₂ j₁ = true then j₂ else j₁
      if lessAt less h j i = false then h
      else down less n fuel (h.swapIfInBounds i j) j

def push (less : α → α → Bool) (h : Array α) (x : α) : Array α :=
  up less (h.size + 1) (h.push x) h.size

/-- The element at the top and the rest; `none` on an empty heap. -/
def pop (less : α → α → Bool) (h : Array α) : Option (α × Array α) :=
  let n := h.size - 1
  let h' := down less n h.size (h.swapIfInBounds 0 n) 0
  match h'.back? with
  | none => none
  | some x => some (x, h'.pop)

/-! ## A heap is its elements, in some order -/

open scoped List

theorem swapIfInBounds_perm (h : Array α) (i j : Nat) :
    (h.swapIfInBounds i j).toList ~ h.toList := by
  rw [Array.swapIfInBounds_def]
  split
  · split
    · exact (Array.swap_perm _ _).toList
    · exact .refl _
  · exact .refl _

variable {less : α → α → Bool}

theorem up_perm (fuel : Nat) (h : Array α) (j : Nat) :
    (up less fuel h j).toList ~ h.toList := by
  induction fuel generalizing h j with
  | zero => exact .refl _
  | succ fuel ih =>
    rw [up]
    split
    · exact .refl _
    · exact (ih _ _).trans (swapIfInBounds_perm _ _ _)

theorem down_perm (n fuel : Nat) (h : Array α) (i : Nat) :
    (down less n fuel h i).toList ~ h.toList := by
  induction fuel generalizing h i with
  | zero => exact .refl _
  | succ fuel ih =>
    rw [down]
    split
    · exact .refl _
    · dsimp only
      generalize (if 2 * i + 1 + 1 < n ∧ lessAt less h (2 * i + 1 + 1) (2 * i + 1) = true
        then 2 * i + 1 + 1 else 2 * i + 1) = j
      split
      · exact .refl _
      · exact (ih _ _).trans (swapIfInBounds_perm _ _ _)

theorem push_perm (h : Array α) (x : α) : (push less h x).toList ~ x :: h.toList := by
  refine (up_perm _ _ _).trans ?_
  rw [Array.toList_push]
  exact List.perm_append_singleton x h.toList

@[simp] theorem size_push (h : Array α) (x : α) : (push less h x).size = h.size + 1 := by
  simpa using (push_perm h x).length_eq

theorem pop_perm {h rest : Array α} {x : α} (hpop : pop less h = some (x, rest)) :
    h.toList ~ x :: rest.toList := by
  unfold pop at hpop
  dsimp only at hpop
  generalize hd : down less (h.size - 1) h.size (h.swapIfInBounds 0 (h.size - 1)) 0 = h'
    at hpop
  split at hpop
  · cases hpop
  · next y hy =>
      cases hpop
      have hlast : h'.toList.dropLast ++ [x] = h'.toList :=
        List.dropLast_append_getLast? x (by simpa using hy)
      have hperm : h'.toList ~ h.toList := by
        rw [← hd]
        exact (down_perm _ _ _ _).trans (swapIfInBounds_perm _ _ _)
      rw [Array.toList_pop]
      refine hperm.symm.trans ?_
      rw [← hlast, List.dropLast_concat]
      exact List.perm_append_singleton x _

end Heap
