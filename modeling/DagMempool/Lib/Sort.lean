import Mathlib.Data.List.Sort

/-!
# `sort.Slice`

Go's `sort.Slice` promises a permutation in which no element stands before a
strictly smaller one, and says in so many words that it is not stable: where
the comparison ties, the result may list the tied elements in any order.
`SliceSort` is any sorter with that contract. Definitions that sort take one as
an instance argument, so what is proved of them holds for every way to break
ties.
-/

/-- A sorter that keeps the contract of `sort.Slice`. -/
class SliceSort where
  /-- `sort.Slice(l, less)`, on the slice's elements. -/
  sortSlice : {α : Type} → (α → α → Bool) → List α → List α
  /-- Nothing is lost and nothing is added. -/
  perm : ∀ {α : Type} (less : α → α → Bool) (l : List α), (sortSlice less l).Perm l
  /-- No element stands before a strictly smaller one, provided `less` is a
  strict weak order. -/
  sorted : ∀ {α : Type} (less : α → α → Bool) (l : List α),
    (∀ a b, less a b = true → less b a = false) →
    (∀ a b c, less b a = false → less c b = false → less c a = false) →
    (sortSlice less l).Pairwise fun a b => less b a = false

namespace SliceSort

/-- The sorter that leaves tied elements in their original order. -/
@[reducible] def stable : SliceSort where
  sortSlice less l := l.insertionSort fun a b => less b a = false
  perm less l := List.perm_insertionSort _ l
  sorted less l hasymm htrans := by
    have htotal : Std.Total fun a b => less b a = false := ⟨fun a b => by
      cases h : less b a with
      | false => exact .inl rfl
      | true => exact .inr (hasymm b a h)⟩
    have htr : IsTrans _ fun a b => less b a = false :=
      ⟨fun a b c hab hbc => htrans a b c hab hbc⟩
    exact List.pairwise_insertionSort _ l

variable [SliceSort] {α : Type}

theorem mem_sortSlice {less : α → α → Bool} {l : List α} {a : α} :
    a ∈ sortSlice less l ↔ a ∈ l :=
  (perm less l).mem_iff

theorem length_sortSlice (less : α → α → Bool) (l : List α) :
    (sortSlice less l).length = l.length :=
  (perm less l).length_eq

/-- Sorted by a key, no element stands before one with a smaller key. -/
theorem sorted_key (key : α → Nat) (l : List α) :
    (sortSlice (fun a b => decide (key a < key b)) l).Pairwise fun a b => key a ≤ key b := by
  have hsorted := sorted (fun a b => decide (key a < key b)) l
    (fun a b h => by simp only [decide_eq_true_eq, decide_eq_false_iff_not] at h ⊢; omega)
    (fun a b c hab hbc => by simp only [decide_eq_false_iff_not] at hab hbc ⊢; omega)
  exact hsorted.imp fun h => by simpa using h

end SliceSort
