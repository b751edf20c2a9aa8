import Mathlib.Data.List.Nodup

/-!
# Lists in order of insertion

A cache that evicts what it got first keeps a list of its keys, new ones at the end. Whether
that list is in order is a matter of what was put in when: the log of all insertions, in which
a key that was removed and put in again stands more than once. What counts for a key is the
last time.
-/

namespace InsertionOrder

variable {α : Type}

/-- The last time `a` was put in is before the last time `b` was. -/
def InsertedBefore (log : List α) (a b : α) : Prop :=
  ∃ older newer, log = older ++ a :: newer ∧ a ∉ newer ∧ b ∈ newer

theorem InsertedBefore.ne {log : List α} {a b : α} (h : InsertedBefore log a b) : a ≠ b := by
  obtain ⟨older, newer, -, hnot, hmem⟩ := h
  rintro rfl
  exact hnot hmem

theorem InsertedBefore.concat {log : List α} {a b c : α} (h : InsertedBefore log a b)
    (hne : a ≠ c) : InsertedBefore (log ++ [c]) a b := by
  obtain ⟨older, newer, rfl, hnot, hmem⟩ := h
  refine ⟨older, newer ++ [c], by simp, ?_, List.mem_append_left _ hmem⟩
  simp [hnot, hne]

theorem insertedBefore_concat {log : List α} {a c : α} (h : a ∈ log) (hne : a ≠ c) :
    InsertedBefore (log ++ [c]) a c := by
  obtain ⟨newer, older, hrev, hnot⟩ := List.eq_append_cons_of_mem (List.mem_reverse.mpr h)
  have hlog : log = older.reverse ++ a :: newer.reverse := by
    rw [← List.reverse_reverse log, hrev]
    simp
  refine ⟨older.reverse, newer.reverse ++ [c], by simp [hlog], ?_, by simp⟩
  simp [hnot, hne]

/-- Keys that were put in, in the order in which they were. -/
structure InOrder (log keys : List α) : Prop where
  inserted : ∀ a ∈ keys, a ∈ log
  ordered : keys.Pairwise (InsertedBefore log)

namespace InOrder

variable {log keys : List α}

theorem nil (log : List α) : InOrder log [] := ⟨by simp, .nil⟩

theorem nodup (h : InOrder log keys) : keys.Nodup := h.ordered.imp InsertedBefore.ne

theorem sublist {keys' : List α} (h : InOrder log keys) (hsub : keys'.Sublist keys) :
    InOrder log keys' :=
  ⟨fun a ha => h.inserted a (hsub.subset ha), h.ordered.sublist hsub⟩

theorem concat {a : α} (h : InOrder log keys) (hnew : a ∉ keys) :
    InOrder (log ++ [a]) (keys ++ [a]) := by
  have hne : ∀ b ∈ keys, b ≠ a := fun b hb he => hnew (he ▸ hb)
  constructor
  · intro b hb
    rw [List.mem_append] at hb ⊢
    exact hb.imp_left (h.inserted b)
  · rw [List.pairwise_append]
    refine ⟨?_, List.pairwise_singleton _ a, fun b hb c hc => ?_⟩
    · exact h.ordered.imp_of_mem fun hb _ hbc => hbc.concat (hne _ hb)
    · rw [List.mem_singleton.mp hc]
      exact insertedBefore_concat (h.inserted b hb) (hne b hb)

/-- What is taken off the front was put in before what is left. -/
theorem dropped (h : InOrder log keys) {n : Nat} {a b : α} (ha : a ∈ keys.take n)
    (hb : b ∈ keys.drop n) : InsertedBefore log a b := by
  have hpairs := h.ordered
  rw [← List.take_append_drop n keys, List.pairwise_append] at hpairs
  exact hpairs.2.2 a ha b hb

end InOrder

end InsertionOrder
