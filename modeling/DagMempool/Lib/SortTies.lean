import DagMempool.Lib.Sort

/-!
# Sorters that break ties as they are told

The contract of `sort.Slice` leaves the order of tied elements open, so that a list sorted by a
key has one arrangement if the key tells its elements apart and several otherwise. What holds for
every sorter has to hold whichever of them is returned: for any lists and any arrangements of
them there is a sorter that returns these.
-/

namespace SliceSort

variable {β : Type} {key : β → Nat} {l l' s s' : List β}

/-- An order of a list that the contract allows where keys are compared. -/
structure Arranges (key : β → Nat) (l s : List β) : Prop where
  perm : s.Perm l
  sorted : s.Pairwise fun a b => key a ≤ key b

theorem arranges_sortSlice [SliceSort] (key : β → Nat) (l : List β) :
    Arranges key l (sortSlice (fun a b => decide (key a < key b)) l) :=
  ⟨perm _ l, sorted_key key l⟩

/-- If the key tells the elements apart, there is one arrangement. -/
theorem Arranges.unique (h : Arranges key l s) (h' : Arranges key l' s') (hperm : l.Perm l')
    (hkey : ∀ a ∈ l, ∀ b ∈ l, key a = key b → a = b) : s = s' := by
  refine List.Perm.eq_of_pairwise ?_ h.sorted h'.sorted
    (h.perm.trans (hperm.trans h'.perm.symm))
  intro a b ha hb hab hba
  have hb : b ∈ l := hperm.mem_iff.mpr (h'.perm.mem_iff.mp hb)
  exact hkey a (h.perm.mem_iff.mp ha) b hb (Nat.le_antisymm hab hba)

/-! ## Several arrangements -/

theorem find?_orderedInsert (key : β → Nat) (a : β) (l : List β) :
    (l.orderedInsert (fun a b => key a ≤ key b) a).find? (fun x => key x = key a) = some a := by
  induction l with
  | nil => simp
  | cons b l ih =>
    rw [List.orderedInsert_cons]
    split
    · simp
    · next hlt =>
        have hne : ¬ key b = key a := by omega
        rw [List.find?_cons_of_neg (by simpa using hne), ih]

/-- The arrangement that begins each key's elements with this one. -/
theorem exists_arranges_first (key : β → Nat) {a : β} (ha : a ∈ l) :
    ∃ s, Arranges key l s ∧ s.find? (fun x => key x = key a) = some a := by
  obtain ⟨before, after, rfl⟩ := List.append_of_mem ha
  refine ⟨(a :: (before ++ after)).insertionSort fun a b => key a ≤ key b, ⟨?_, ?_⟩, ?_⟩
  · exact (List.perm_insertionSort _ _).trans List.perm_middle.symm
  · exact List.pairwise_insertionSort _ _
  · rw [List.insertionSort_cons]
    exact find?_orderedInsert key a _

/-- If the key does not tell two elements apart, there are two. -/
theorem exists_two_arrangements (key : β → Nat) {a b : β} (ha : a ∈ l) (hb : b ∈ l)
    (hkey : key a = key b) (hne : a ≠ b) :
    ∃ s s', Arranges key l s ∧ Arranges key l s' ∧ s ≠ s' := by
  obtain ⟨s, hs, hfirst⟩ := exists_arranges_first key ha
  obtain ⟨s', hs', hfirst'⟩ := exists_arranges_first key hb
  refine ⟨s, s', hs, hs', ?_⟩
  rintro rfl
  rw [hkey, hfirst'] at hfirst
  exact hne (Option.some.inj hfirst).symm

/-! ## A sorter for each of them -/

/-- A call of `sort.Slice`: the type of the elements, the comparison, the slice. -/
abbrev Call := (α : Type) × (α → α → Bool) × List α

open Classical in
/-- The sorter that answers one call with an arrangement, and every other one as `base` does. -/
@[reducible] noncomputable def answering (base : SliceSort) (h : Arranges key l s) : SliceSort where
  sortSlice {α} less slice :=
    if e : (⟨α, less, slice⟩ : Call) = ⟨β, fun a b => decide (key a < key b), l⟩ then
      cast (congrArg (fun call : Call => List call.1) e.symm) s
    else base.sortSlice less slice
  perm {α} less slice := by
    split
    · next e =>
        cases e
        exact h.perm
    · exact base.perm less slice
  sorted {α} less slice hasymm htrans := by
    split
    · next e =>
        cases e
        exact h.sorted.imp fun hle => by simpa using hle
    · exact base.sorted less slice hasymm htrans

theorem answering_self (base : SliceSort) (h : Arranges key l s) :
    (answering base h).sortSlice (fun a b => decide (key a < key b)) l = s :=
  dif_pos rfl

theorem answering_ne (base : SliceSort) (h : Arranges key l s) (hne : l' ≠ l) :
    (answering base h).sortSlice (fun a b => decide (key a < key b)) l' =
      base.sortSlice (fun a b => decide (key a < key b)) l' := by
  refine dif_neg fun e => hne ?_
  cases e
  rfl

/-- Two lists, arranged in any way the contract allows. -/
theorem exists_sorter (h : Arranges key l s) (h' : Arranges key l' s') (hne : l ≠ l') :
    ∃ sorter : SliceSort, sorter.sortSlice (fun a b => decide (key a < key b)) l = s ∧
      sorter.sortSlice (fun a b => decide (key a < key b)) l' = s' := by
  refine ⟨answering (answering stable h) h', ?_, answering_self _ h'⟩
  rw [answering_ne _ h' hne, answering_self]

end SliceSort
