import DagMempool.Lib.Run
import Mathlib.Data.Finset.Card
import Mathlib.Data.List.Iterate

/-!
# The first other one

To choose from a list something else than what was chosen last, by taking the first that is
different. It looks like going round the list, and does not: from the second choice on it goes
back and forth between the first element and the first that differs from it, so that whatever
comes after these two is not chosen, however long the list.
-/

namespace FirstOther

variable {α : Type} [DecidableEq α]

/-- The first element that is not `a`, or `a` if there is none. -/
def firstOther (l : List α) (a : α) : α := (l.find? fun b => b != a).getD a

/-- The first element and the first that differs from it. -/
def firstTwo : List α → List α
  | [] => []
  | b :: l => [b, firstOther (b :: l) b]

/-- A list with two elements: everything but its first leads to the first, and the first leads
to another one. -/
theorem firstOther_pair {l : List α} (h : 2 ≤ l.toFinset.card) :
    ∃ b c, b ≠ c ∧ b ∈ l ∧ c ∈ l ∧ firstTwo l = [b, c] ∧
      ∀ a, firstOther l a = if a = b then c else b := by
  cases l with
  | nil => simp at h
  | cons b l =>
    have hfind : ∃ c, (b :: l).find? (fun d => d != b) = some c := by
      rw [← Option.isSome_iff_exists, List.find?_isSome]
      by_contra hnone
      have hsub : (b :: l).toFinset ⊆ {b} := by
        intro d hd
        rw [Finset.mem_singleton]
        by_contra hne
        exact hnone ⟨d, List.mem_toFinset.mp hd, by simpa using hne⟩
      have hcard := Finset.card_le_card hsub
      rw [Finset.card_singleton] at hcard
      omega
    obtain ⟨c, hc⟩ := hfind
    have hother : firstOther (b :: l) b = c := by rw [firstOther, hc]; rfl
    have hne : c ≠ b := by simpa using List.find?_some hc
    refine ⟨b, c, hne.symm, List.mem_cons_self, List.mem_of_find?_eq_some hc, ?_, fun a => ?_⟩
    · rw [firstTwo, hother]
    · split
      · next ha => rw [ha, hother]
      · next ha =>
          have hhead : (b :: l).find? (fun d => d != a) = some b :=
            List.find?_cons_of_pos (by simpa using Ne.symm ha)
          rw [firstOther, hhead]
          rfl

/-- The choices repeat after two, or after three if the first was neither of the two. -/
theorem nodup_iterate {φ : α → α} {b c : α} (hne : b ≠ c)
    (hφ : ∀ a, φ a = if a = b then c else b) (a : α) (n : Nat) :
    (List.iterate φ a n).Nodup ↔ n ≤ 2 ∨ n = 3 ∧ a ∉ [b, c] := by
  have hb : φ b = c := by rw [hφ, if_pos rfl]
  have hc : φ c = b := by rw [hφ, if_neg hne.symm]
  match n with
  | 0 => simp [List.iterate]
  | 1 => simp [List.iterate]
  | 2 =>
    have hstep : a ≠ φ a := by
      rw [hφ]
      split
      · next ha => rw [ha]; exact hne
      · next ha => exact ha
    simp [List.iterate, hstep]
  | 3 =>
    by_cases hab : a = b
    · simp [List.iterate, hab, hb, hc]
    · by_cases hac : a = c
      · simp [List.iterate, hac, hb, hc]
      · have ha : φ a = b := by rw [hφ, if_neg hab]
        simp [List.iterate, ha, hb, hab, hac, hne]
  | n + 4 =>
    -- The second choice is one of the two, and the fourth is the same.
    have hback : φ (φ (φ a)) = φ a := by
      rw [hφ a]
      split
      · rw [hc, hb]
      · rw [hb, hc]
    refine iff_of_false (fun hnodup => ?_) (by omega)
    rw [List.iterate, List.nodup_cons, List.iterate, List.nodup_cons] at hnodup
    refine hnodup.2.1 ?_
    rw [List.iterate, List.iterate, hback]
    simp

/-! ## Visiting every element -/

/-- The first choices, as many as there are elements, are elements and all different. -/
def Visits (l : List α) (choices : List α) : Prop :=
  ∀ m ≤ l.toFinset.card, (choices.take m).Nodup ∧ ∀ a ∈ choices.take m, a ∈ l

/-- Choosing the first other one visits a list, in up to `R` further choices, only if the list
is short or the choices are few. -/
theorem visits_iterate_iff {φ : α → α} {l : List α}
    (hφ : 2 ≤ l.toFinset.card → ∀ a, φ a = firstOther l a) (a : α) (R : Nat) :
    (∀ j ≤ R, Visits l (List.iterate φ a (j + 1))) ↔
      l.toFinset.card = 0 ∨ a ∈ l ∧
        (min l.toFinset.card (R + 1) ≤ 2 ∨
          min l.toFinset.card (R + 1) = 3 ∧ a ∉ firstTwo l) := by
  have htake : ∀ m j, (List.iterate φ a (j + 1)).take m = List.iterate φ a (min m (j + 1)) :=
    fun m j => List.take_iterate φ a m (j + 1)
  constructor
  · intro h
    have hall := h R (Nat.le_refl R) l.toFinset.card (Nat.le_refl _)
    rw [htake] at hall
    rcases Nat.eq_zero_or_pos l.toFinset.card with hzero | hpos
    · exact .inl hzero
    · obtain ⟨n, hn⟩ : ∃ n, min l.toFinset.card (R + 1) = n + 1 :=
        ⟨min l.toFinset.card (R + 1) - 1, by omega⟩
      refine .inr ⟨hall.2 a (by rw [hn, List.iterate]; simp), ?_⟩
      by_cases htwo : 2 ≤ l.toFinset.card
      · obtain ⟨b, c, hne, -, -, hfirst, hpair⟩ := firstOther_pair htwo
        rw [hfirst]
        exact (nodup_iterate hne (fun a => (hφ htwo a).trans (hpair a)) a _).mp hall.1
      · exact .inl (by omega)
  · intro h j hj m hm
    rw [htake]
    rcases h with hzero | ⟨hmem, hcond⟩
    · have hm0 : min m (j + 1) = 0 := by omega
      rw [hm0]
      simp [List.iterate]
    · by_cases htwo : 2 ≤ min m (j + 1)
      · obtain ⟨b, c, hne, hb, hc, hfirst, hpair⟩ := firstOther_pair (l := l) (by omega)
        have hstep : ∀ a, φ a = if a = b then c else b :=
          fun a => (hφ (by omega) a).trans (hpair a)
        rw [hfirst] at hcond
        constructor
        · rw [nodup_iterate hne hstep]
          by_cases hle : min m (j + 1) ≤ 2
          · exact .inl hle
          · rcases hcond with hfew | ⟨hthree, hnot⟩
            · omega
            · exact .inr ⟨by omega, hnot⟩
        · intro x hx
          obtain ⟨i, -, rfl⟩ := List.mem_iterate.mp hx
          cases i with
          | zero => exact hmem
          | succ i =>
            rw [Function.iterate_succ_apply', hstep]
            split
            · exact hc
            · exact hb
      · have hle : min m (j + 1) = 0 ∨ min m (j + 1) = 1 := by omega
        rcases hle with heq | heq
        · rw [heq]
          simp [List.iterate]
        · rw [heq]
          simp [List.iterate, hmem]

/-! ## Choices along a run -/

section

variable {σ ε ω β : Type} {step : σ → ε → σ × List ω} {choices : List ω → List β}
  {next : β → β} {limit : Nat} {I : β → Nat → σ → Prop}

/-- Where a step makes no choice or the next one, a run has made some first ones of the sequence
of choices. -/
theorem exec_choices (happend : ∀ l l', choices (l ++ l') = choices l ++ choices l')
    (hstep : ∀ {a n s} (e : ε), I a n s →
      (choices (step s e).2 = [] ∧ I a n (step s e).1) ∨
        (choices (step s e).2 = [next a] ∧ n < limit ∧ I (next a) (n + 1) (step s e).1))
    {a : β} {n : Nat} {s : σ} (h : I a n s) (es : List ε) (log : List ω) :
    ∃ j, n + j ≤ max n limit ∧
      choices (Run.exec step s log es).2 = choices log ++ List.iterate next (next a) j := by
  induction es generalizing s a n log with
  | nil => exact ⟨0, by omega, (List.append_nil _).symm⟩
  | cons e es ih =>
    rcases hstep e h with ⟨hnone, hnext⟩ | ⟨hone, hlt, hnext⟩
    · obtain ⟨j, hj, hrest⟩ := ih hnext (log ++ (step s e).2)
      refine ⟨j, hj, hrest.trans ?_⟩
      rw [happend, hnone, List.append_nil]
    · obtain ⟨j, hj, hrest⟩ := ih hnext (log ++ (step s e).2)
      refine ⟨j + 1, by omega, hrest.trans ?_⟩
      rw [happend, hone, List.append_assoc]
      rfl

/-- Where the next choice can be made as long as there are fewer than the limit, any number of
them up to it can. -/
theorem exists_exec_choices (happend : ∀ l l', choices (l ++ l') = choices l ++ choices l')
    (hstep : ∀ {a n s}, I a n s → n < limit →
      ∃ e : ε, choices (step s e).2 = [next a] ∧ I (next a) (n + 1) (step s e).1)
    {a : β} {n : Nat} {s : σ} (h : I a n s) {k : Nat} (hk : n + k ≤ limit) (log : List ω) :
    ∃ es, choices (Run.exec step s log es).2 = choices log ++ List.iterate next (next a) k := by
  induction k generalizing s a n log with
  | zero => exact ⟨[], (List.append_nil _).symm⟩
  | succ k ih =>
    obtain ⟨e, hone, hnext⟩ := hstep h (by omega)
    obtain ⟨es, hrest⟩ := ih hnext (by omega) (log ++ (step s e).2)
    refine ⟨e :: es, hrest.trans ?_⟩
    rw [happend, hone, List.append_assoc]
    rfl

end

end FirstOther
