import DagMempool.Lib.Run
import DagMempool.Types.Ideal
import DagMempool.Worker.AckTracker

/-!
# The quorum callback

The callback of the ack tracker is meant to report a batch when it first has its quorum of acks.
It is called by the ack that lifts the count from below the quorum to it, which is the first time
if the quorum stays what it is. A quorum that is lowered can be reached without an ack, and then
the batch is never reported; one that is raised can be reached a second time, and then it is
reported again; and a quorum of zero is reached by tracking. The callback says when the quorum is
first reached exactly in the runs where none of that happens.
-/

namespace DagMempool

inductive AckCall where
  | trackBatch (batch : Batch)
  | recordAck (batchDigest : Hash) (validator : UInt16)
  | updateQuorum (quorum : Nat)
  | hasQuorum (batchDigest : Hash)

namespace AckTracker

variable {tracker : AckTracker} {fired : List Hash}

/-- One call at a time, with the batches the callback is called for. -/
def call (tracker : AckTracker) : AckCall × Int → AckTracker × List Hash
  | (.trackBatch batch, now) => (tracker.trackBatch batch now, [])
  | (.recordAck digest validator, now) =>
    ((tracker.recordAck digest validator).2,
      (tracker.quorumCallback digest validator now).toList.map (·.1))
  | (.updateQuorum quorum, _) => (tracker.updateQuorum quorum, [])
  | (.hasQuorum _, _) => (tracker, [])

/-- A batch has to get its quorum from an ack, and only once: what is tracked is below the
quorum, a new quorum is above the acks of what was not seen with its quorum, and the ack with
which a count is at the quorum is not for a batch that was. -/
def ReachesUnseen (tracker : AckTracker) (seen : Hash → Prop) : AckCall × Int → Prop
  | (.trackBatch batch, _) => tracker.pending.get batch.digest = none → 0 < tracker.quorum
  | (.recordAck digest validator, _) => ∀ entry, tracker.pending.get digest = some entry →
      entry.acks.has validator = false → entry.acks.len + 1 = tracker.quorum → ¬ seen digest
  | (.updateQuorum quorum, _) => ∀ digest entry, tracker.pending.get digest = some entry →
      ¬ seen digest → entry.acks.len < quorum
  | (.hasQuorum _, _) => True

/-- The batch has its quorum, or had it before one of the calls so far. -/
def HadQuorum (tracker : AckTracker) (past : List (AckTracker × (AckCall × Int))) (d : Hash) :
    Prop :=
  tracker.hasQuorum d = true ∨ ∃ p ∈ past, p.1.hasQuorum d = true

def ReachesByAck (tracker : AckTracker) (past : List (AckTracker × (AckCall × Int))) :
    AckCall × Int → Prop :=
  tracker.ReachesUnseen (tracker.HadQuorum past)

/-- Nothing is reported that is not tracked. -/
structure FiredTracked (tracker : AckTracker) (fired : List Hash) : Prop where
  opened : tracker.closed = false
  tracked : ∀ d ∈ fired, tracker.pending.has d = true

/-- Each batch was reported once, and whatever has its quorum was. -/
structure Reported (tracker : AckTracker) (fired : List Hash) : Prop
    extends tracker.FiredTracked fired where
  once : fired.Nodup
  reported : ∀ {d}, tracker.hasQuorum d = true → d ∈ fired

theorem reported_new (quorum : Nat) (timeout : Int) : (new quorum timeout).Reported [] where
  opened := rfl
  tracked := by simp
  once := List.nodup_nil
  reported h := absurd h (by simp [hasQuorum, new])

/-! ## One call

`Reported` is what a call has to keep. Each call keeps it exactly under the condition that
`ReachesUnseen` has for it, with what was reported in the place of what was seen. -/

theorem Reported.trackBatch_iff (h : tracker.Reported fired) (batch : Batch) (now : Int) :
    (tracker.trackBatch batch now).Reported fired ↔
      (tracker.pending.get batch.digest = none → 0 < tracker.quorum) := by
  cases hget : tracker.pending.get batch.digest with
  | some entry =>
    have hsame : tracker.trackBatch batch now = tracker := by
      simp [trackBatch, h.opened, GoMap.has, hget]
    rw [hsame]
    exact iff_of_true h (by simp)
  | none =>
    have htrack : tracker.trackBatch batch now = { tracker with
        pending := tracker.pending.set batch.digest { batch, acks := ∅, createdAt := now } } := by
      simp [trackBatch, h.opened, GoMap.has, hget]
    rw [htrack]
    constructor
    · intro hrep _
      by_contra hzero
      have hreached := hrep.reported (hasQuorum_iff.mpr
        ⟨_, GoMap.get_set_self _ _ _, Nat.le_of_not_lt hzero⟩)
      have hhas := h.tracked batch.digest hreached
      simp [GoMap.has, hget] at hhas
    · intro hpos
      refine ⟨⟨h.opened, fun d hd => GoMap.has_set.mpr (.inr (h.tracked d hd))⟩, h.once,
        fun {d} hd => ?_⟩
      obtain ⟨entry, hentry, hle⟩ := hasQuorum_iff.mp hd
      rcases GoMap.get_set_eq_some hentry with ⟨rfl, rfl⟩ | ⟨-, hold⟩
      · have hempty : tracker.quorum ≤ 0 := hle
        exact absurd (hpos rfl) (by omega)
      · exact h.reported (hasQuorum_iff.mpr ⟨entry, hold, hle⟩)

/-- An ack is for nothing that is tracked, or a repetition, or it counts. -/
theorem recordAck_callback_cases (hopen : tracker.closed = false) (d : Hash) (validator : UInt16)
    (now : Int) :
    (tracker.recordAck d validator).2 = tracker ∧
        tracker.quorumCallback d validator now = none ∧
        (∀ entry, tracker.pending.get d = some entry → entry.acks.has validator = true) ∨
      ∃ entry, tracker.pending.get d = some entry ∧ entry.acks.has validator = false ∧
        (tracker.recordAck d validator).2 = { tracker with
          pending := tracker.pending.set d { entry with acks := entry.acks.set validator () } } ∧
        (tracker.quorumCallback d validator now).toList.map (·.1) =
          if entry.acks.len + 1 = tracker.quorum then [d] else [] := by
  cases hget : tracker.pending.get d with
  | none =>
    exact .inl ⟨by simp [recordAck, hopen, hget], by simp [quorumCallback, hopen, hget],
      fun _ hentry => nomatch hentry⟩
  | some entry =>
    cases hnew : entry.acks.has validator with
    | true =>
      refine .inl ⟨by simp [recordAck, hopen, hget, hnew],
        by simp [quorumCallback, hopen, hget, hnew], ?_⟩
      rintro _ ⟨⟩
      exact hnew
    | false =>
      have hlen : (entry.acks.set validator ()).len = entry.acks.len + 1 :=
        GoMap.len_set_of_get_none (by simpa [GoMap.has] using hnew) ()
      refine .inr ⟨entry, rfl, hnew, by simp [recordAck, hopen, hget, hnew], ?_⟩
      unfold quorumCallback
      rw [hopen, if_neg (by simp), hget]
      dsimp only
      rw [if_neg (by simp [hnew]), hlen]
      by_cases heq : entry.acks.len + 1 = tracker.quorum
      · have hbelow : entry.acks.len < tracker.quorum := by omega
        simp [hbelow, heq]
      · have hnot : ¬ (entry.acks.len < tracker.quorum ∧
            tracker.quorum ≤ entry.acks.len + 1) := by
          omega
        simp [hnot, heq]

theorem Reported.ack (h : tracker.Reported fired) {d : Hash} {entry : PendingBatch}
    (hget : tracker.pending.get d = some entry) {validator : UInt16}
    (hnew : entry.acks.has validator = false)
    (hreach : entry.acks.len + 1 = tracker.quorum → d ∉ fired) :
    { tracker with
      pending := tracker.pending.set d { entry with acks := entry.acks.set validator () }
      }.Reported (fired ++ if entry.acks.len + 1 = tracker.quorum then [d] else []) := by
  refine ⟨⟨h.opened, fun d' hd' => GoMap.has_set.mpr ?_⟩, ?_, fun {d'} hd' => ?_⟩
  · rcases List.mem_append.mp hd' with hold | hnow
    · exact .inr (h.tracked d' hold)
    · split at hnow
      · exact .inl (List.mem_singleton.mp hnow)
      · cases hnow
  · split
    · next heq =>
        exact List.nodup_append.mpr ⟨h.once, List.nodup_singleton d,
          fun a ha b hb hab => hreach heq (List.mem_singleton.mp hb ▸ hab ▸ ha)⟩
    · simpa using h.once
  · obtain ⟨entry', hentry, hle⟩ := hasQuorum_iff.mp hd'
    rcases GoMap.get_set_eq_some hentry with ⟨rfl, rfl⟩ | ⟨-, hold⟩
    · -- Either the count was at the quorum before, or it is now.
      have hle : tracker.quorum ≤ (entry.acks.set validator ()).len := hle
      rw [GoMap.len_set_of_get_none (by simpa [GoMap.has] using hnew)] at hle
      by_cases heq : entry.acks.len + 1 = tracker.quorum
      · rw [if_pos heq]
        exact List.mem_append_right _ List.mem_cons_self
      · have hbefore := h.reported (hasQuorum_iff.mpr ⟨entry, hget, by omega⟩)
        exact List.mem_append_left _ hbefore
    · exact List.mem_append_left _ (h.reported (hasQuorum_iff.mpr ⟨entry', hold, hle⟩))

theorem Reported.recordAck_iff (h : tracker.Reported fired) (d : Hash) (validator : UInt16)
    (now : Int) :
    (tracker.recordAck d validator).2.Reported
        (fired ++ (tracker.quorumCallback d validator now).toList.map (·.1)) ↔
      tracker.ReachesUnseen (· ∈ fired) (.recordAck d validator, now) := by
  rcases recordAck_callback_cases h.opened d validator now with
    ⟨hsame, hnone, hold⟩ | ⟨entry, hget, hnew, hrecord, hfires⟩
  · rw [hsame, hnone]
    refine iff_of_true (by simpa using h) fun entry hentry hnew => ?_
    rw [hold entry hentry] at hnew
    cases hnew
  · have hguard : tracker.ReachesUnseen (· ∈ fired) (.recordAck d validator, now) ↔
        (entry.acks.len + 1 = tracker.quorum → d ∉ fired) := by
      refine ⟨fun hreach => hreach entry hget hnew, fun hreach entry' hentry _ => ?_⟩
      obtain rfl := Option.some.inj (hget.symm.trans hentry)
      exact hreach
    rw [hrecord, hfires, hguard]
    constructor
    · intro hrep heq
      have honce := hrep.once
      rw [if_pos heq] at honce
      have hdisjoint := (List.nodup_append.mp honce).2.2
      exact fun hmem => hdisjoint d hmem d List.mem_cons_self rfl
    · exact h.ack hget hnew

theorem Reported.updateQuorum_iff (h : tracker.Reported fired) (quorum : Nat) :
    (tracker.updateQuorum quorum).Reported fired ↔
      ∀ d entry, tracker.pending.get d = some entry → d ∉ fired → entry.acks.len < quorum := by
  constructor
  · intro hrep d entry hentry hnot
    by_contra hle
    exact hnot (hrep.reported (hasQuorum_iff.mpr ⟨entry, hentry, Nat.le_of_not_lt hle⟩))
  · intro hbelow
    refine ⟨⟨h.opened, h.tracked⟩, h.once, fun {d} hd => ?_⟩
    obtain ⟨entry, hentry, hle⟩ := hasQuorum_iff.mp hd
    have hle : quorum ≤ entry.acks.len := hle
    by_contra hnot
    exact absurd (hbelow d entry hentry hnot) (by omega)

theorem Reported.call_iff (h : tracker.Reported fired) (c : AckCall × Int) :
    (tracker.call c).1.Reported (fired ++ (tracker.call c).2) ↔
      tracker.ReachesUnseen (· ∈ fired) c := by
  obtain ⟨c, now⟩ := c
  cases c with
  | trackBatch batch =>
    show (tracker.trackBatch batch now).Reported (fired ++ []) ↔ _
    rw [List.append_nil]
    exact h.trackBatch_iff batch now
  | recordAck d validator => exact h.recordAck_iff d validator now
  | updateQuorum quorum =>
    show (tracker.updateQuorum quorum).Reported (fired ++ []) ↔ _
    rw [List.append_nil]
    exact h.updateQuorum_iff quorum
  | hasQuorum d =>
    show tracker.Reported (fired ++ []) ↔ True
    rw [List.append_nil]
    exact iff_of_true h trivial

/-! ## Runs

What was reported stays tracked, so that a batch is not reported by being tracked anew; and by
then what was reported is what had its quorum, which turns the condition on reports into one on
the run. -/

theorem closed_call (tracker : AckTracker) (c : AckCall × Int) :
    (tracker.call c).1.closed = tracker.closed := by
  obtain ⟨c, now⟩ := c
  cases c with
  | trackBatch batch => exact (tracker.trackBatch_fields batch now).1
  | recordAck d validator => exact (tracker.recordAck_fields d validator).1
  | updateQuorum quorum => rfl
  | hasQuorum d => rfl

theorem has_call {d : Hash} (h : tracker.pending.has d = true) (c : AckCall × Int) :
    (tracker.call c).1.pending.has d = true := by
  rw [← holds_zero] at h ⊢
  obtain ⟨c, now⟩ := c
  cases c with
  | trackBatch batch => exact h.trackBatch batch now
  | recordAck digest validator => exact h.recordAck digest validator
  | updateQuorum quorum => exact h
  | hasQuorum digest => exact h

theorem hasQuorum_of_fired (hopen : tracker.closed = false) {c : AckCall × Int} {d : Hash}
    (hd : d ∈ (tracker.call c).2) : (tracker.call c).1.hasQuorum d = true := by
  obtain ⟨c, now⟩ := c
  cases c with
  | trackBatch | updateQuorum | hasQuorum => exact absurd hd (by simp [call])
  | recordAck digest validator =>
    have hd : d ∈ (tracker.quorumCallback digest validator now).toList.map (·.1) := hd
    show (tracker.recordAck digest validator).2.hasQuorum d = true
    rcases recordAck_callback_cases hopen digest validator now with
      ⟨-, hnone, -⟩ | ⟨entry, -, hnew, hrecord, hfires⟩
    · rw [hnone] at hd
      cases hd
    · rw [hfires] at hd
      split at hd
      · next heq =>
          obtain rfl := List.mem_singleton.mp hd
          rw [hrecord]
          refine hasQuorum_iff.mpr ⟨_, GoMap.get_set_self _ _ _, ?_⟩
          show tracker.quorum ≤ (entry.acks.set validator ()).len
          rw [GoMap.len_set_of_get_none (by simpa [GoMap.has] using hnew)]
          omega
      · cases hd

theorem FiredTracked.call (h : tracker.FiredTracked fired) (c : AckCall × Int) :
    (tracker.call c).1.FiredTracked (fired ++ (tracker.call c).2) := by
  refine ⟨(tracker.closed_call c).trans h.opened, fun d hd => ?_⟩
  rcases List.mem_append.mp hd with hold | hnow
  · exact has_call (h.tracked d hold) c
  · obtain ⟨entry, hentry, -⟩ := hasQuorum_iff.mp (hasQuorum_of_fired h.opened hnow)
    exact GoMap.has_iff.mpr ⟨entry, hentry⟩

theorem FiredTracked.exec (h : tracker.FiredTracked fired) (calls : List (AckCall × Int)) :
    (Run.exec AckTracker.call tracker fired calls).1.FiredTracked
      (Run.exec AckTracker.call tracker fired calls).2 :=
  Run.exec_invariant (I := FiredTracked) (fun _ _ c h => h.call c) h calls

/-- The batches that the callback was called for. -/
def firedIn (past : List (AckTracker × (AckCall × Int))) : List Hash :=
  past.flatMap fun p => (p.1.call p.2).2

/-- What was reported is what had its quorum. -/
structure Told (tracker : AckTracker) (past : List (AckTracker × (AckCall × Int))) : Prop where
  reported : tracker.Reported (firedIn past)
  had : ∀ d, d ∈ firedIn past ↔ tracker.HadQuorum past d

theorem Told.call_iff {past : List (AckTracker × (AckCall × Int))} (h : tracker.Told past)
    (c : AckCall × Int) :
    (tracker.call c).1.Told (past ++ [(tracker, c)]) ↔ tracker.ReachesByAck past c := by
  have hfired : firedIn (past ++ [(tracker, c)]) = firedIn past ++ (tracker.call c).2 := by
    rw [firedIn, List.flatMap_append, List.flatMap_singleton]
    rfl
  have hguard : tracker.ReachesByAck past = tracker.ReachesUnseen (· ∈ firedIn past) :=
    congrArg tracker.ReachesUnseen (funext fun d => propext (h.had d).symm)
  rw [hguard, ← h.reported.call_iff c, ← hfired]
  refine ⟨Told.reported, fun hnext => ⟨hnext, fun d => ⟨fun hd => ?_, fun hd => ?_⟩⟩⟩
  · rw [hfired, List.mem_append] at hd
    rcases hd with hold | hnow
    · rcases (h.had d).mp hold with hhas | ⟨p, hp, hhas⟩
      · exact .inr ⟨(tracker, c), by simp, hhas⟩
      · exact .inr ⟨p, List.mem_append_left _ hp, hhas⟩
    · exact .inl (hasQuorum_of_fired h.reported.opened hnow)
  · rcases hd with hhas | ⟨p, hp, hhas⟩
    · exact hnext.reported hhas
    · rw [hfired]
      refine List.mem_append_left _ ((h.had d).mpr ?_)
      rcases List.mem_append.mp hp with hp | hp
      · exact .inr ⟨p, hp, hhas⟩
      · rw [List.mem_singleton.mp hp] at hhas
        exact .inl hhas

/-- What had its quorum in a run had it after some of the calls. -/
theorem hadQuorum_exec (tracker : AckTracker) (calls : List (AckCall × Int)) (d : Hash) :
    (Run.exec (Run.history call) tracker [] calls).1.HadQuorum
        (Run.exec (Run.history call) tracker [] calls).2 d ↔
      ∃ calls', calls' <+: calls ∧ (Run.exec call tracker [] calls').1.hasQuorum d = true := by
  induction calls generalizing tracker with
  | nil => simp [HadQuorum, Run.exec]
  | cons c calls ih =>
    have hnext : (∃ calls', calls' <+: c :: calls ∧
        (Run.exec call tracker [] calls').1.hasQuorum d = true) ↔
        tracker.hasQuorum d = true ∨ ∃ calls', calls' <+: calls ∧
          (Run.exec call (tracker.call c).1 [] calls').1.hasQuorum d = true := by
      have hexec : ∀ calls', (Run.exec call tracker [] (c :: calls')).1 =
          (Run.exec call (tracker.call c).1 [] calls').1 := by
        intro calls'
        rw [Run.exec_eq_history tracker, Run.exec_history_cons,
          Run.exec_eq_history (tracker.call c).1 ([] : List Hash)]
      constructor
      · rintro ⟨calls', hpre, hhas⟩
        rcases List.prefix_cons_iff.mp hpre with rfl | ⟨calls'', rfl, hrest⟩
        · exact .inl hhas
        · exact .inr ⟨calls'', hrest, hexec calls'' ▸ hhas⟩
      · rintro (hhas | ⟨calls', hpre, hhas⟩)
        · exact ⟨[], List.nil_prefix, hhas⟩
        · exact ⟨c :: calls', (List.prefix_cons_inj c).mpr hpre, (hexec calls').symm ▸ hhas⟩
    rw [hnext, ← ih, Run.exec_history_cons, HadQuorum, HadQuorum]
    simp only [List.mem_cons, exists_eq_or_imp]
    tauto

/-- All along a run the callback has been called at most once for a batch, and has been exactly
if the batch had its quorum at some moment, if and only if the quorum of a batch is always reached
by an ack, and by one ack only. -/
theorem quorum_callback_once_iff (quorum : Nat) (timeout : Int) (calls : List (AckCall × Int)) :
    (∀ calls', calls' <+: calls →
      let run := Run.exec call (new quorum timeout) [] calls'
      ∀ d, run.2.count d ≤ 1 ∧ (d ∈ run.2 ↔ ∃ calls'', calls'' <+: calls' ∧
        (Run.exec call (new quorum timeout) [] calls'').1.hasQuorum d = true)) ↔
    Run.AllOk (Run.history call) ReachesByAck (new quorum timeout) [] calls := by
  have hstart := reported_new quorum timeout
  have htold : (new quorum timeout).Told [] :=
    ⟨hstart, fun d => by simp [firedIn, HadQuorum, hasQuorum, new]⟩
  rw [← Run.exec_invariant_iff (I := Told) (fun _ _ c h => h.call_iff c) htold calls]
  refine forall_congr' fun calls' => imp_congr_right fun _ => ?_
  have hrun : Run.exec call (new quorum timeout) [] calls' = _ := Run.exec_eq_history _ _ _
  have htracked := hstart.toFiredTracked.exec calls'
  simp only [← hadQuorum_exec]
  rw [hrun, List.nil_append] at htracked ⊢
  constructor
  · intro hprop
    refine ⟨⟨htracked, List.nodup_iff_count_le_one.mpr fun d => (hprop d).1, fun {d} hhas => ?_⟩,
      fun d => (hprop d).2⟩
    exact (hprop d).2.mpr (.inl hhas)
  · exact fun h d => ⟨List.nodup_iff_count_le_one.mp h.reported.once d, h.had d⟩

end AckTracker

section

attribute [local instance] idealCrypto

def countedBatch : Batch := .new 0 1 0 [[7]] 5

/-- The quorum is lowered to the one ack there is. -/
def lowerQuorum : List (AckCall × Int) :=
  [(.trackBatch countedBatch, 0), (.recordAck countedBatch.digest 1, 1), (.updateQuorum 1, 2)]

/-- The quorum is raised after it was reached, and then reached again. -/
def raiseQuorum : List (AckCall × Int) :=
  [(.trackBatch countedBatch, 0), (.recordAck countedBatch.digest 1, 1), (.updateQuorum 2, 2),
    (.recordAck countedBatch.digest 2, 3)]

/-- With a quorum that changes, a batch can have it unreported, or be reported twice. -/
theorem quorum_reported_never_or_twice :
    (let run := Run.exec AckTracker.call (.new 2 10) [] lowerQuorum
     run.1.hasQuorum countedBatch.digest = true ∧ run.2 = []) ∧
    (Run.exec AckTracker.call (.new 1 10) [] raiseQuorum).2 =
      [countedBatch.digest, countedBatch.digest] := by
  decide +kernel

end

end DagMempool
