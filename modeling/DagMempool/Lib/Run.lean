import Mathlib.Data.List.Forall2

/-!
# Guarded runs of a step function

A reactive program is a step function: from a state and an event to the next
state and the outputs of that step. A run feeds it events, one after the other,
and `Reach` relates the initial states to every state some run ends in,
together with everything that was output on the way, oldest first.

Each step may be guarded. The guard sees the state before the step, the outputs
so far and the event, so that "every run whose steps all meet a condition" is a
`Reach` with that condition as its guard, and "every run" is the guard that
always holds. `Reach.invariant` is the one induction: what holds at the start
and is kept by every guarded step holds wherever a run ends.
-/

namespace Run

variable {σ ε ω : Type}

/-- The states, with their output histories, that guarded runs reach. -/
inductive Reach (init : σ → Prop) (step : σ → ε → σ × List ω)
    (ok : σ → List ω → ε → Prop) : σ → List ω → Prop
  | start {s : σ} (h : init s) : Reach init step ok s []
  | next {s : σ} {log : List ω} (e : ε) (h : Reach init step ok s log)
      (hok : ok s log e) : Reach init step ok (step s e).1 (log ++ (step s e).2)

variable {init : σ → Prop} {step : σ → ε → σ × List ω}
variable {ok : σ → List ω → ε → Prop} {I : σ → List ω → Prop} {s : σ} {log : List ω}

/-- An invariant of guarded steps holds in every state a guarded run reaches. -/
theorem Reach.invariant (h0 : ∀ s, init s → I s [])
    (hstep : ∀ s log e, I s log → ok s log e → I (step s e).1 (log ++ (step s e).2))
    (h : Reach init step ok s log) : I s log := by
  induction h with
  | start hs => exact h0 _ hs
  | next e _ hok ih => exact hstep _ _ e ih hok

/-- Every step of every guarded run has a property, of the state before it, the
outputs before it and its event. -/
def Always (init : σ → Prop) (step : σ → ε → σ × List ω) (ok P : σ → List ω → ε → Prop) :
    Prop :=
  ∀ s log e, Reach init step ok s log → ok s log e → P s log e

/-- What an invariant implies of each guarded step is always so. -/
theorem Always.of_invariant {P : σ → List ω → ε → Prop} (h0 : ∀ s, init s → I s [])
    (hstep : ∀ s log e, I s log → ok s log e → I (step s e).1 (log ++ (step s e).2))
    (hP : ∀ s log e, I s log → ok s log e → P s log e) : Always init step ok P :=
  fun s log e h hok => hP s log e (h.invariant h0 hstep) hok

/-- The state and history after feeding a list of events. -/
def exec (step : σ → ε → σ × List ω) : σ → List ω → List ε → σ × List ω
  | s, log, [] => (s, log)
  | s, log, e :: es => exec step (step s e).1 (log ++ (step s e).2) es

/-- The guard of every step of a list of events, read off the run itself. -/
def AllOk (step : σ → ε → σ × List ω) (ok : σ → List ω → ε → Prop) :
    σ → List ω → List ε → Prop
  | _, _, [] => True
  | s, log, e :: es =>
    ok s log e ∧ AllOk step ok (step s e).1 (log ++ (step s e).2) es

instance AllOk.decidable (step : σ → ε → σ × List ω) (ok : σ → List ω → ε → Prop)
    [hd : ∀ s log e, Decidable (ok s log e)] :
    ∀ s log es, Decidable (AllOk step ok s log es)
  | _, _, [] => .isTrue trivial
  | s, log, e :: es =>
    match hd s log e, AllOk.decidable step ok (step s e).1 (log ++ (step s e).2) es with
    | .isTrue h₁, .isTrue h₂ => .isTrue ⟨h₁, h₂⟩
    | .isFalse h₁, _ => .isFalse fun h => h₁ h.1
    | _, .isFalse h₂ => .isFalse fun h => h₂ h.2

theorem AllOk.of_forall (h : ∀ s log e, ok s log e) (s : σ) (log : List ω) (es : List ε) :
    AllOk step ok s log es := by
  induction es generalizing s log with
  | nil => trivial
  | cons e es ih => exact ⟨h s log e, ih _ _⟩

theorem Reach.exec_of_reach (h : Reach init step ok s log) {es : List ε}
    (hes : AllOk step ok s log es) :
    Reach init step ok (exec step s log es).1 (exec step s log es).2 := by
  induction es generalizing s log with
  | nil => exact h
  | cons e es ih => exact ih (.next e h hes.1) hes.2

/-- A list of events whose guards all hold is a run. -/
theorem Reach.of_exec (hs : init s) {es : List ε} (hes : AllOk step ok s [] es) :
    Reach init step ok (exec step s [] es).1 (exec step s [] es).2 :=
  Reach.exec_of_reach (.start hs) hes

theorem exec_invariant (hstep : ∀ s log e, I s log → I (step s e).1 (log ++ (step s e).2))
    (h : I s log) (es : List ε) : I (exec step s log es).1 (exec step s log es).2 := by
  induction es generalizing s log with
  | nil => exact h
  | cons e es ih => exact ih (hstep s log e h)

/-- Where the guard is exactly what a step needs to keep an invariant, the invariant holds all
along a run exactly if every step meets the guard. -/
theorem exec_invariant_iff
    (hstep : ∀ s log e, I s log → (I (step s e).1 (log ++ (step s e).2) ↔ ok s log e))
    (h : I s log) (es : List ε) :
    (∀ es', es' <+: es → I (exec step s log es').1 (exec step s log es').2) ↔
      AllOk step ok s log es := by
  induction es generalizing s log with
  | nil =>
    refine iff_of_true (fun es' hpre => ?_) trivial
    rw [List.prefix_nil.mp hpre]
    exact h
  | cons e es ih =>
    constructor
    · intro hall
      have hnext : I (step s e).1 (log ++ (step s e).2) := hall [e] (by simp)
      refine ⟨(hstep s log e h).mp hnext, (ih hnext).mp fun es' hpre => ?_⟩
      exact hall (e :: es') (List.prefix_cons_inj e |>.mpr hpre)
    · rintro ⟨hok, hrest⟩ es' hpre
      rcases List.prefix_cons_iff.mp hpre with rfl | ⟨es'', rfl, hpre'⟩
      · exact h
      · exact (ih ((hstep s log e h).mpr hok)).mpr hrest es'' hpre'

/-! ## Two implementations

A relation between the states of two step functions that every guarded step keeps, and
under which the outputs of a step correspond, makes the outputs of whole runs
correspond. -/

theorem exec_related {τ υ : Type} {step' : τ → ε → τ × List υ} {R : σ → τ → Prop}
    {Q : ω → υ → Prop} (hstep : ∀ s t log e, R s t → ok s log e →
      R (step s e).1 (step' t e).1 ∧ List.Forall₂ Q (step s e).2 (step' t e).2) {t : τ}
    {log' : List υ} (h : R s t) (hlog : List.Forall₂ Q log log') {es : List ε}
    (hes : AllOk step ok s log es) :
    R (exec step s log es).1 (exec step' t log' es).1 ∧
      List.Forall₂ Q (exec step s log es).2 (exec step' t log' es).2 := by
  induction es generalizing s t log log' with
  | nil => exact ⟨h, hlog⟩
  | cons e es ih =>
    obtain ⟨hnext, hout⟩ := hstep s t log e h hes.1
    exact ih hnext (List.rel_append hlog hout) hes.2

/-! ## Histories

What a run did, rather than what it output: each step leaves behind the state it
started from and its event. -/

/-- The step function, with the state before and the event as its only output. -/
def history (step : σ → ε → σ × List ω) (s : σ) (e : ε) : σ × List (σ × ε) :=
  ((step s e).1, [(s, e)])

theorem exec_history_log (s : σ) (log : List (σ × ε)) (es : List ε) :
    exec (history step) s log es =
      ((exec (history step) s [] es).1, log ++ (exec (history step) s [] es).2) := by
  induction es generalizing s log with
  | nil => exact congrArg (Prod.mk s) (List.append_nil log).symm
  | cons e es ih =>
    rw [exec, exec, ih, ih _ ([] ++ _), List.append_assoc, List.nil_append]

theorem exec_history_cons (s : σ) (e : ε) (es : List ε) :
    exec (history step) s [] (e :: es) =
      ((exec (history step) (step s e).1 [] es).1,
        (s, e) :: (exec (history step) (step s e).1 [] es).2) :=
  exec_history_log (step s e).1 [(s, e)] es

/-- What a run output is what its steps did, one after the other. -/
theorem exec_eq_history (s : σ) (log : List ω) (es : List ε) :
    exec step s log es = ((exec (history step) s [] es).1,
      log ++ (exec (history step) s [] es).2.flatMap fun e => (step e.1 e.2).2) := by
  induction es generalizing s log with
  | nil => exact congrArg (Prod.mk s) (List.append_nil log).symm
  | cons e es ih => rw [exec, ih, exec_history_cons, List.flatMap_cons, List.append_assoc]

/-- What a run of several events did, seen from one of them. -/
theorem exec_history_split (s : σ) (es : List ε) (e : ε) (es' : List ε) :
    (exec (history step) s [] (es ++ e :: es')).2 =
      (exec (history step) s [] es).2 ++ ((exec (history step) s [] es).1, e) ::
        (exec (history step) (step (exec (history step) s [] es).1 e).1 [] es').2 := by
  induction es generalizing s with
  | nil => rw [List.nil_append, exec_history_cons]; rfl
  | cons x es ih => rw [List.cons_append, exec_history_cons, exec_history_cons, ih]; rfl

end Run
