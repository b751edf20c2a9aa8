import Mathlib.Data.Nat.Basic

/-!
# The flow controller

Whether new transactions are refused: paused while the current round is too far
ahead of the committed one, or while too many batches or headers are pending.
Both rounds are set to whatever was reported last.
-/

namespace DagMempool

structure FlowConfig where
  maxUncommittedRounds : UInt64
  maxPendingBatches : Int64
  maxPendingHeaders : Int64

structure FlowController where
  cfg : FlowConfig
  currentRound : UInt64
  committedRound : UInt64
  pendingBatches : Int64
  pendingHeaders : Int64
  paused : Bool
  pauseCount : UInt64
  resumeCount : UInt64

theorem toNat_sub_or_zero (a b : UInt64) :
    (if a ≤ b then 0 else a - b).toNat = a.toNat - b.toNat := by
  split
  · next hle =>
      rw [UInt64.le_iff_toNat_le] at hle
      rw [Nat.sub_eq_zero_of_le hle]
      rfl
  · next hlt =>
      rw [UInt64.le_iff_toNat_le] at hlt
      exact UInt64.toNat_sub_of_le _ _ (UInt64.le_iff_toNat_le.mpr (by omega))

namespace FlowController

def new (cfg : FlowConfig) : FlowController :=
  { cfg, currentRound := 0, committedRound := 0, pendingBatches := 0, pendingHeaders := 0
    paused := false, pauseCount := 0, resumeCount := 0 }

def uncommittedGap (fc : FlowController) : UInt64 :=
  if fc.currentRound ≤ fc.committedRound then 0 else fc.currentRound - fc.committedRound

theorem uncommittedGap_toNat (fc : FlowController) :
    fc.uncommittedGap.toNat = fc.currentRound.toNat - fc.committedRound.toNat :=
  toNat_sub_or_zero _ _

def shouldPause (fc : FlowController) : Bool :=
  decide (fc.cfg.maxUncommittedRounds ≤ fc.uncommittedGap) ||
    (decide (0 < fc.cfg.maxPendingBatches) &&
      decide (fc.cfg.maxPendingBatches ≤ fc.pendingBatches)) ||
    (decide (0 < fc.cfg.maxPendingHeaders) &&
      decide (fc.cfg.maxPendingHeaders ≤ fc.pendingHeaders))

theorem shouldPause_of_pending_zero {fc : FlowController} (hbatches : fc.pendingBatches = 0)
    (hheaders : fc.pendingHeaders = 0) :
    fc.shouldPause = decide (fc.cfg.maxUncommittedRounds ≤ fc.uncommittedGap) := by
  have hnone : ∀ limit : Int64, (decide (0 < limit) && decide (limit ≤ 0)) = false := by
    intro limit
    simp only [Bool.and_eq_false_imp, decide_eq_true_eq, decide_eq_false_iff_not, Int64.not_le]
    exact id
  rw [shouldPause, hbatches, hheaders, hnone, hnone, Bool.or_false, Bool.or_false]

def checkFlowControl (fc : FlowController) : FlowController :=
  if fc.shouldPause then
    if fc.paused then fc else { fc with paused := true, pauseCount := fc.pauseCount + 1 }
  else
    if fc.paused then { fc with paused := false, resumeCount := fc.resumeCount + 1 } else fc

def updateCurrentRound (fc : FlowController) (round : UInt64) : FlowController :=
  { fc with currentRound := round }.checkFlowControl

def updateCommittedRound (fc : FlowController) (round : UInt64) : FlowController :=
  { fc with committedRound := round }.checkFlowControl

/-- A counter after `Add(-1)`, stored again as zero where it went below. -/
def decremented (pending : Int64) : Int64 := if pending - 1 < 0 then 0 else pending - 1

def addPendingBatch (fc : FlowController) : FlowController :=
  { fc with pendingBatches := fc.pendingBatches + 1 }.checkFlowControl

def removePendingBatch (fc : FlowController) : FlowController :=
  { fc with pendingBatches := decremented fc.pendingBatches }.checkFlowControl

def addPendingHeader (fc : FlowController) : FlowController :=
  { fc with pendingHeaders := fc.pendingHeaders + 1 }.checkFlowControl

def removePendingHeader (fc : FlowController) : FlowController :=
  { fc with pendingHeaders := decremented fc.pendingHeaders }.checkFlowControl

end FlowController

/-! ## Calls and callbacks -/

inductive FlowCallback where
  | onPause
  | onResume
  deriving DecidableEq, Repr

inductive FlowCall where
  | updateCurrentRound (round : UInt64)
  | updateCommittedRound (round : UInt64)
  | addPendingBatch
  | removePendingBatch
  | addPendingHeader
  | removePendingHeader

namespace FlowController

/-- The callback `checkFlowControl` calls, if it pauses or resumes. -/
def callback (fc : FlowController) : Option FlowCallback :=
  if fc.shouldPause then
    if fc.paused then none else some .onPause
  else
    if fc.paused then some .onResume else none

def call (fc : FlowController) : FlowCall → FlowController
  | .updateCurrentRound round => fc.updateCurrentRound round
  | .updateCommittedRound round => fc.updateCommittedRound round
  | .addPendingBatch => fc.addPendingBatch
  | .removePendingBatch => fc.removePendingBatch
  | .addPendingHeader => fc.addPendingHeader
  | .removePendingHeader => fc.removePendingHeader

/-- What a call has stored when it comes to the check. -/
def stored (fc : FlowController) : FlowCall → FlowController
  | .updateCurrentRound round => { fc with currentRound := round }
  | .updateCommittedRound round => { fc with committedRound := round }
  | .addPendingBatch => { fc with pendingBatches := fc.pendingBatches + 1 }
  | .removePendingBatch => { fc with pendingBatches := decremented fc.pendingBatches }
  | .addPendingHeader => { fc with pendingHeaders := fc.pendingHeaders + 1 }
  | .removePendingHeader => { fc with pendingHeaders := decremented fc.pendingHeaders }

theorem call_eq (fc : FlowController) (c : FlowCall) :
    fc.call c = (fc.stored c).checkFlowControl := by
  cases c <;> rfl

theorem checkFlowControl_cases (fc : FlowController) :
    (fc.paused = fc.shouldPause ∧ fc.callback = none ∧ fc.checkFlowControl = fc) ∨
    (fc.paused = false ∧ fc.shouldPause = true ∧ fc.callback = some .onPause ∧
      fc.checkFlowControl = { fc with paused := true, pauseCount := fc.pauseCount + 1 }) ∨
    (fc.paused = true ∧ fc.shouldPause = false ∧ fc.callback = some .onResume ∧
      fc.checkFlowControl = { fc with paused := false, resumeCount := fc.resumeCount + 1 }) := by
  unfold checkFlowControl callback
  cases fc.shouldPause with
  | true =>
    cases hpaused : fc.paused with
    | true => exact .inl ⟨rfl, rfl, rfl⟩
    | false => exact .inr (.inl ⟨rfl, rfl, rfl, rfl⟩)
  | false =>
    cases hpaused : fc.paused with
    | true => exact .inr (.inr ⟨rfl, rfl, rfl, rfl⟩)
    | false => exact .inl ⟨rfl, rfl, rfl⟩

end FlowController

end DagMempool
