import Mathlib.Data.List.Basic
import Mathlib.Logic.Function.Basic

/-!
# Go slices

A slice is a length and a backing array that other slices may share. `append` writes behind
the slice into the same array while there is room, over whatever another slice had there,
and otherwise moves to a new array of a size the run time chooses. Memory is the list of the
arrays allocated so far. Only slices that begin where their array begins are needed here.

`Holds` says what a slice reads. What is done to one slice leaves alone what is held by a
slice with another array, so that a program with slices is followed by keeping its arrays
apart.
-/

namespace GoSlice

variable {α : Type}

/-- What was ever written to an array, up to its size. -/
structure Backing (α : Type) where
  cells : List α
  cap : Nat
  fits : cells.length ≤ cap

abbrev Memory (α : Type) := List (Backing α)

structure Slice where
  array : Nat
  len : Nat

/-- `s[:0]` -/
def Slice.truncate (s : Slice) : Slice := { s with len := 0 }

def contents (m : Memory α) (s : Slice) : List α :=
  ((m[s.array]?.map (·.cells)).getD []).take s.len

/-- `make` with length zero. -/
def make (m : Memory α) (cap : Nat) : Memory α × Slice :=
  (m ++ [⟨[], cap, Nat.zero_le cap⟩], ⟨m.length, 0⟩)

/-- `make` of the same length, and `copy`. -/
def clone (m : Memory α) (s : Slice) : Memory α × Slice :=
  let l := contents m s
  (m ++ [⟨l, l.length, Nat.le_refl _⟩], ⟨m.length, l.length⟩)

/-- The cells with some written behind the first `len`. -/
def overwrite (cells : List α) (len : Nat) (xs : List α) : List α :=
  cells.take len ++ xs ++ cells.drop (len + xs.length)

theorem length_overwrite (cells : List α) (len : Nat) (xs : List α) :
    (overwrite cells len xs).length ≤ max cells.length (len + xs.length) := by
  simp only [overwrite, List.length_append, List.length_take, List.length_drop]
  omega

theorem take_overwrite {cells : List α} {len : Nat} (h : len ≤ cells.length) (xs : List α) :
    (overwrite cells len xs).take (len + xs.length) = cells.take len ++ xs := by
  refine List.take_left' ?_
  rw [List.length_append, List.length_take, Nat.min_eq_left h]

/-- `append`; `grow` is how much more than needed a new array gets. -/
def append (grow : Nat → Nat) (m : Memory α) (s : Slice) (xs : List α) : Memory α × Slice :=
  match m[s.array]? with
  | none => (m ++ [⟨xs, xs.length + grow xs.length, Nat.le_add_right _ _⟩], ⟨m.length, xs.length⟩)
  | some b =>
    if h : s.len + xs.length ≤ b.cap then
      (m.set s.array ⟨overwrite b.cells s.len xs, b.cap,
          Nat.le_trans (length_overwrite ..) (Nat.max_le.mpr ⟨b.fits, h⟩)⟩,
        { s with len := s.len + xs.length })
    else
      let l := b.cells.take s.len ++ xs
      (m ++ [⟨l, l.length + grow l.length, Nat.le_add_right _ _⟩], ⟨m.length, l.length⟩)

/-! ## What a slice holds -/

structure Holds (m : Memory α) (s : Slice) (l : List α) : Prop where
  backed : ∃ b, m[s.array]? = some b ∧ s.len ≤ b.cells.length ∧ b.cells.take s.len = l

namespace Holds

variable {m : Memory α} {s t : Slice} {l l' : List α}

theorem contents (h : Holds m s l) : contents m s = l := by
  obtain ⟨b, hb, -, hl⟩ := h.backed
  rw [GoSlice.contents, hb]
  exact hl

theorem length (h : Holds m s l) : l.length = s.len := by
  obtain ⟨b, -, hlen, rfl⟩ := h.backed
  rw [List.length_take, Nat.min_eq_left hlen]

theorem allocated (h : Holds m s l) : s.array < m.length := by
  obtain ⟨b, hb, -⟩ := h.backed
  exact (List.getElem?_eq_some_iff.mp hb).1

theorem truncate (h : Holds m s l) : Holds m s.truncate [] := by
  obtain ⟨b, hb, -⟩ := h.backed
  exact ⟨b, hb, Nat.zero_le _, List.take_zero⟩

theorem extend (h : Holds m s l) (b : Backing α) : Holds (m ++ [b]) s l := by
  obtain ⟨b', hb', hlen, hl⟩ := h.backed
  exact ⟨b', by rw [List.getElem?_append_left h.allocated, hb'], hlen, hl⟩

theorem new (m : Memory α) (b : Backing α) {n : Nat} (hn : n ≤ b.cells.length) :
    Holds (m ++ [b]) ⟨m.length, n⟩ (b.cells.take n) :=
  ⟨b, by simp, hn, rfl⟩

theorem make (m : Memory α) (cap : Nat) : Holds (make m cap).1 (make m cap).2 [] :=
  new m _ (Nat.zero_le _)

theorem clone (h : Holds m s l) : Holds (clone m s).1 (clone m s).2 l := by
  obtain rfl := h.contents
  have hnew := new m ⟨GoSlice.contents m s, (GoSlice.contents m s).length, Nat.le_refl _⟩
    (Nat.le_refl _)
  rw [List.take_length] at hnew
  exact hnew

theorem append (h : Holds m s l) (grow : Nat → Nat) (xs : List α) :
    Holds (append grow m s xs).1 (append grow m s xs).2 (l ++ xs) := by
  obtain ⟨b, hb, hlen, rfl⟩ := h.backed
  unfold GoSlice.append
  rw [hb]
  dsimp only
  split
  · refine ⟨_, List.getElem?_set_self h.allocated, ?_, take_overwrite hlen xs⟩
    simp only [overwrite, List.length_append, List.length_take]
    omega
  · have hnew := new m ⟨b.cells.take s.len ++ xs,
      (b.cells.take s.len ++ xs).length + grow (b.cells.take s.len ++ xs).length,
      Nat.le_add_right _ _⟩ (Nat.le_refl _)
    rw [List.take_length] at hnew
    exact hnew

/-- `append` to a slice leaves alone what slices with other arrays hold, and the array stays
another one. -/
theorem append_frame (h : Holds m t l') (hs : Holds m s l) (hne : t.array ≠ s.array)
    (grow : Nat → Nat) (xs : List α) :
    Holds (GoSlice.append grow m s xs).1 t l' ∧
      t.array ≠ (GoSlice.append grow m s xs).2.array := by
  obtain ⟨b, hb, -⟩ := hs.backed
  unfold GoSlice.append
  rw [hb]
  dsimp only
  split
  · obtain ⟨b', hb', hlen, hl⟩ := h.backed
    exact ⟨⟨b', by rw [List.getElem?_set_ne hne.symm, hb'], hlen, hl⟩, hne⟩
  · exact ⟨h.extend _, Nat.ne_of_lt h.allocated⟩

end Holds

/-! ## Several slices -/

/-- The slices that a piece of a program works with, by their names. -/
structure Locals (ι α : Type) where
  memory : Memory α
  slice : ι → Slice

namespace Locals

variable {ι : Type}

def read (v : Locals ι α) (i : ι) : List α := contents v.memory (v.slice i)

/-- They hold these lists, each in an array of its own. -/
structure Holds (v : Locals ι α) (l : ι → List α) : Prop where
  holds : ∀ i, GoSlice.Holds v.memory (v.slice i) (l i)
  apart : ∀ i j, i ≠ j → (v.slice i).array ≠ (v.slice j).array

theorem Holds.read {v : Locals ι α} {l : ι → List α} (h : v.Holds l) (i : ι) : v.read i = l i :=
  (h.holds i).contents

variable [DecidableEq ι]

/-- `x = append(x, ...)` -/
def append (grow : Nat → Nat) (v : Locals ι α) (i : ι) (xs : List α) : Locals ι α :=
  let appended := GoSlice.append grow v.memory (v.slice i) xs
  { memory := appended.1, slice := Function.update v.slice i appended.2 }

theorem Holds.append {v : Locals ι α} {l : ι → List α} (h : v.Holds l) (grow : Nat → Nat) (i : ι)
    (xs : List α) : (v.append grow i xs).Holds (Function.update l i (l i ++ xs)) := by
  have hother : ∀ j, j ≠ i → _ := fun j hj =>
    (h.holds j).append_frame (h.holds i) (h.apart j i hj) grow xs
  refine ⟨fun j => ?_, fun j k hjk => ?_⟩
  · by_cases hj : j = i
    · subst hj
      simpa [Locals.append] using (h.holds j).append grow xs
    · simpa [Locals.append, hj] using (hother j hj).1
  · by_cases hj : j = i
    · subst hj
      simpa [Locals.append, hjk.symm] using (hother k hjk.symm).2.symm
    · by_cases hk : k = i
      · subst hk
        simpa [Locals.append, hj] using (hother j hj).2
      · simpa [Locals.append, hj, hk] using h.apart j k hjk

end Locals

end GoSlice
