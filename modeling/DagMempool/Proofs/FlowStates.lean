import DagMempool.Gc.Flow
import DagMempool.Lib.Run
import Mathlib.Algebra.Group.Int.Defs
import Mathlib.Algebra.Group.Nat.Defs

/-!
# The states of the flow controller

Six calls change two rounds and two counters, and all of them end in the same check. The check
acts on a change only, so that after any calls the controller is paused exactly if one of its
limits is reached, the callbacks take turns, and the numbers of pauses and resumes are one
apart while it is paused and equal otherwise.

The counters are words of 64 bits with a sign. They are put back to zero where a removal would
take them below, and nothing keeps an addition from taking them above: `2^63` batches that are
added and not removed make the counter negative.
-/

namespace DagMempool

namespace FlowController

/-- A limit is reached: the gap between the rounds, which is zero where the committed one is
ahead, or one of the counters whose limit is on. -/
def OverLimit (fc : FlowController) : Prop :=
  fc.cfg.maxUncommittedRounds.toNat ≤ fc.currentRound.toNat - fc.committedRound.toNat ∨
    (0 < fc.cfg.maxPendingBatches ∧ fc.cfg.maxPendingBatches ≤ fc.pendingBatches) ∨
    (0 < fc.cfg.maxPendingHeaders ∧ fc.cfg.maxPendingHeaders ≤ fc.pendingHeaders)

variable (fc : FlowController) {log : List FlowCallback}

theorem shouldPause_eq_true : fc.shouldPause = true ↔ fc.OverLimit := by
  simp only [shouldPause, OverLimit, Bool.or_eq_true, Bool.and_eq_true, decide_eq_true_eq,
    UInt64.le_iff_toNat_le, uncommittedGap_toNat, or_assoc]

def flowStep (fc : FlowController) (c : FlowCall) : FlowController × List FlowCallback :=
  (fc.call c, (fc.stored c).callback.toList)

/-- The callbacks take turns, and the first one is a pause. -/
def Alternate (log : List FlowCallback) : Prop :=
  ∀ i c, log[i]? = some c → c = if i % 2 = 0 then .onPause else .onResume

theorem Alternate.concat {c : FlowCallback} (h : Alternate log)
    (hc : c = if log.length % 2 = 0 then .onPause else .onResume) : Alternate (log ++ [c]) := by
  intro i c' hget
  rw [List.getElem?_append] at hget
  split at hget
  · exact h i c' hget
  · next hge =>
      obtain ⟨hi, hget⟩ := List.getElem?_eq_some_iff.mp hget
      have hlen : i = log.length := by
        rw [List.length_singleton] at hi
        omega
      rw [List.getElem_singleton] at hget
      rw [hlen, ← hget]
      exact hc

/-- What holds after any calls, with the callbacks made so far. -/
structure InStep (fc : FlowController) (log : List FlowCallback) : Prop where
  checked : fc.paused = fc.shouldPause
  alternate : Alternate log
  parity : log.length % 2 = if fc.paused then 1 else 0
  counts : fc.pauseCount = fc.resumeCount + if fc.paused then 1 else 0

/-- The check, on values that were just stored and not checked yet. What it looks at is not
what it writes, so that its own condition is the same afterwards. -/
theorem InStep.check {fc : FlowController} (halt : Alternate log)
    (hparity : log.length % 2 = if fc.paused then 1 else 0)
    (hcounts : fc.pauseCount = fc.resumeCount + if fc.paused then 1 else 0) :
    InStep fc.checkFlowControl (log ++ fc.callback.toList) := by
  rcases fc.checkFlowControl_cases with ⟨hsame, hcb, heq⟩ | ⟨hpaused, hshould, hcb, heq⟩ |
    ⟨hpaused, hshould, hcb, heq⟩
  · rw [hcb, heq, Option.toList_none, List.append_nil]
    exact ⟨hsame, halt, hparity, hcounts⟩
  · rw [hpaused] at hparity hcounts
    rw [hcb, heq]
    refine ⟨hshould.symm, halt.concat ?_, ?_, ?_⟩
    · rw [hparity]
      rfl
    · rw [List.length_append, Nat.add_mod, hparity]
      rfl
    · rw [hcounts]
      simp
  · rw [hpaused] at hparity hcounts
    rw [hcb, heq]
    refine ⟨hshould.symm, halt.concat ?_, ?_, ?_⟩
    · rw [hparity]
      rfl
    · rw [List.length_append, Nat.add_mod, hparity]
      rfl
    · rw [hcounts]
      simp

theorem InStep.call {fc : FlowController} (h : InStep fc log) (c : FlowCall) :
    InStep (flowStep fc c).1 (log ++ (flowStep fc c).2) := by
  show InStep (fc.call c) (log ++ (fc.stored c).callback.toList)
  rw [call_eq]
  cases c <;> exact .check h.alternate h.parity h.counts

theorem inStep_new {cfg : FlowConfig} (h : 1 ≤ cfg.maxUncommittedRounds) :
    InStep (new cfg) [] where
  checked := by
    rw [shouldPause_of_pending_zero rfl rfl]
    refine (decide_eq_false fun hgap => ?_).symm
    have hgap : (1 : UInt64) ≤ 0 := UInt64.le_trans h hgap
    exact absurd hgap (by decide)
  alternate i c hget := absurd hget (by simp)
  parity := rfl
  counts := rfl

/-! ## The counters

Both counters are added to by one call and taken from by another. The value is followed as an
integer, with the number of additions as its bound. -/

def addsBatch : FlowCall → Bool
  | .addPendingBatch => true
  | _ => false

def addsHeader : FlowCall → Bool
  | .addPendingHeader => true
  | _ => false

theorem toInt_succ {pending : Int64} (h : 0 ≤ pending.toInt) (hlt : pending.toInt + 1 < 2 ^ 63) :
    (pending + 1).toInt = pending.toInt + 1 := by
  rw [Int64.toInt_add, show (1 : Int64).toInt = 1 from rfl]
  exact Int.bmod_eq_of_le (by omega) (by omega)

theorem decremented_toInt {pending : Int64} (h : 0 ≤ pending.toInt) :
    0 ≤ (decremented pending).toInt ∧ (decremented pending).toInt ≤ pending.toInt := by
  have hsub : (pending - 1).toInt = pending.toInt - 1 := by
    rw [Int64.toInt_sub, show (1 : Int64).toInt = 1 from rfl]
    have hle := pending.toInt_lt
    exact Int.bmod_eq_of_le (by omega) (by omega)
  unfold decremented
  split
  · exact ⟨Int.le_refl 0, h⟩
  · next hneg =>
      rw [Int64.lt_iff_toInt_lt, hsub, Int64.toInt_zero] at hneg
      omega

/-- A counter that some calls add to and others take from. -/
structure Counts (counter : FlowController → Int64) (adds : FlowCall → Bool) : Prop where
  call : ∀ fc c, adds c = true ∧ counter (fc.call c) = counter fc + 1 ∨
    counter (fc.call c) = counter fc ∨ counter (fc.call c) = decremented (counter fc)

theorem checkFlowControl_pending :
    fc.checkFlowControl.pendingBatches = fc.pendingBatches ∧
      fc.checkFlowControl.pendingHeaders = fc.pendingHeaders := by
  rcases fc.checkFlowControl_cases with ⟨-, -, heq⟩ | ⟨-, -, -, heq⟩ | ⟨-, -, -, heq⟩ <;>
    rw [heq] <;> exact ⟨rfl, rfl⟩

theorem counts_batches : Counts pendingBatches addsBatch := by
  refine ⟨fun fc c => ?_⟩
  rw [call_eq, (checkFlowControl_pending _).1]
  cases c with
  | addPendingBatch => exact .inl ⟨rfl, rfl⟩
  | removePendingBatch => exact .inr (.inr rfl)
  | _ => exact .inr (.inl rfl)

theorem counts_headers : Counts pendingHeaders addsHeader := by
  refine ⟨fun fc c => ?_⟩
  rw [call_eq, (checkFlowControl_pending _).2]
  cases c with
  | addPendingHeader => exact .inl ⟨rfl, rfl⟩
  | removePendingHeader => exact .inr (.inr rfl)
  | _ => exact .inr (.inl rfl)

theorem Counts.nonneg {counter : FlowController → Int64} {adds : FlowCall → Bool}
    (h : Counts counter adds) {fc : FlowController} {calls : List FlowCall}
    (hfc : 0 ≤ (counter fc).toInt) (hlt : (counter fc).toInt + calls.countP adds < 2 ^ 63) :
    0 ≤ (counter (Run.exec flowStep fc log calls).1).toInt := by
  induction calls generalizing fc log with
  | nil => exact hfc
  | cons c calls ih =>
    rw [List.countP_cons] at hlt
    suffices hnext : 0 ≤ (counter (fc.call c)).toInt ∧
        (counter (fc.call c)).toInt + calls.countP adds < 2 ^ 63 from ih hnext.1 hnext.2
    rcases h.call fc c with ⟨hadds, heq⟩ | heq | heq
    · rw [if_pos hadds] at hlt
      rw [heq, toInt_succ hfc (by omega)]
      omega
    · rw [heq]
      omega
    · have hdec := decremented_toInt hfc
      rw [heq]
      omega

/-- After any calls, with `MaxUncommittedRounds` at least one: the controller is paused exactly
if a limit is reached, a counter that was added to fewer than `2^63` times is not negative, the
callbacks made alternate and begin with a pause, and there was one pause more than resumes, or
as many. -/
theorem flowController_settled (cfg : FlowConfig) (h : 1 ≤ cfg.maxUncommittedRounds)
    (calls : List FlowCall) :
    let run := Run.exec flowStep (new cfg) [] calls
    (run.1.paused = true ↔ run.1.OverLimit) ∧
      (calls.countP addsBatch < 2 ^ 63 → 0 ≤ run.1.pendingBatches) ∧
      (calls.countP addsHeader < 2 ^ 63 → 0 ≤ run.1.pendingHeaders) ∧
      Alternate run.2 ∧
      run.1.pauseCount - run.1.resumeCount = if run.1.paused then 1 else 0 := by
  have hrun : InStep (Run.exec flowStep (new cfg) [] calls).1
      (Run.exec flowStep (new cfg) [] calls).2 :=
    Run.exec_invariant (fun fc log c hfc => hfc.call c) (inStep_new h) calls
  refine ⟨?_, fun hadds => ?_, fun hadds => ?_, hrun.alternate, ?_⟩
  · rw [hrun.checked, shouldPause_eq_true]
  · rw [Int64.le_iff_toInt_le]
    refine counts_batches.nonneg (Int.le_refl 0) ?_
    show (0 : Int64).toInt + _ < _
    rw [Int64.toInt_zero]
    omega
  · rw [Int64.le_iff_toInt_le]
    refine counts_headers.nonneg (Int.le_refl 0) ?_
    show (0 : Int64).toInt + _ < _
    rw [Int64.toInt_zero]
    omega
  · rw [hrun.counts]
    rw [UInt64.add_comm, UInt64.add_sub_cancel]

/-- Two rounds ahead with a limit of two, one batch with a limit of one: paused for either
reason, and resumed when both are gone. -/
theorem flowController_settled_cycle :
    let cfg : FlowConfig :=
      { maxUncommittedRounds := 2, maxPendingBatches := 1, maxPendingHeaders := 0 }
    let calls : List FlowCall := [.updateCurrentRound 2, .addPendingBatch,
      .updateCommittedRound 1, .removePendingBatch, .removePendingBatch]
    (Run.exec flowStep (new cfg) [] calls).2 = [.onPause, .onResume] ∧
      Alternate (Run.exec flowStep (new cfg) [] calls).2 ∧
      0 ≤ (Run.exec flowStep (new cfg) [] calls).1.pendingBatches := by
  intro cfg calls
  obtain ⟨-, hbatches, -, halternate, -⟩ := flowController_settled cfg (by decide) calls
  exact ⟨by decide, halternate, hbatches (by decide)⟩

theorem pendingBatches_replicate (log : List FlowCallback) (n : Nat) :
    (Run.exec flowStep fc log (List.replicate n .addPendingBatch)).1.pendingBatches =
      fc.pendingBatches + Int64.ofNat n := by
  induction n generalizing fc log with
  | zero => exact (Int64.add_zero _).symm
  | succ n ih =>
    rw [List.replicate_succ, Run.exec, ih]
    show fc.addPendingBatch.pendingBatches + _ = _
    rw [addPendingBatch, (checkFlowControl_pending _).1, Int64.ofNat_add, Int64.add_assoc,
      Int64.add_comm (Int64.ofNat n)]
    rfl

/-- The calls that take the counter below zero. -/
theorem pendingBatches_negative :
    let cfg : FlowConfig :=
      { maxUncommittedRounds := 1, maxPendingBatches := 0, maxPendingHeaders := 0 }
    (Run.exec flowStep (new cfg) []
      (List.replicate (2 ^ 63) .addPendingBatch)).1.pendingBatches < 0 := by
  intro cfg
  rw [pendingBatches_replicate]
  show (0 : Int64) + Int64.ofNat (2 ^ 63) < 0
  decide

end FlowController

end DagMempool
