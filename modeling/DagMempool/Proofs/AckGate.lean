import DagMempool.Node.Ideal
import DagMempool.Proofs.CertificateWrites

/-!
# Acknowledged batches only

A header refers to a batch once a quorum of validators has acknowledged it. The
acknowledgments are with the worker that made the batch; the pool asks all of its
workers; the primary asks the pool. The invariant is about where each recorded
acknowledgment came from: the validator itself, for a batch it made, or a message
whose signature was checked against the validator set of that moment. Nothing else
writes to a tracker, and trackers come and go with their workers.

The quorum the trackers compare with is that of the node's validator set, also
after the set has changed.
-/

namespace DagMempool

/-! ## Trackers

`J` says which acknowledgments may be recorded. A worker has no others if it had none: it records
its own for what it makes, and those it is handed. -/

/-- A tracked batch of validator `me`, whose acknowledgments `J` accounts for. -/
structure PendingBatch.AckedBy (J : Hash → UInt16 → Prop) (me : UInt16) (d : Hash)
    (entry : PendingBatch) : Prop where
  digest : entry.batch.digest = d
  creator : entry.batch.validatorID = me
  acks : ∀ v, entry.acks.has v = true → J d v

structure Worker.AckedBy (J : Hash → UInt16 → Prop) (me : UInt16) (q : Nat) (w : Worker) :
    Prop where
  validatorID : w.validatorID = me
  quorum : w.ackTracker.quorum = q
  pending : ∀ d entry, w.ackTracker.pending.get d = some entry → entry.AckedBy J me d

variable {now : Int} {v : UInt16} {d : Hash} {hasAckQuorum : Hash → Bool}

section

theorem AckTracker.recordAck_pending {tracker : AckTracker}
    (h : ∀ d entry, tracker.pending.get d = some entry → entry.AckedBy J me d) (hJ : J d v)
    {d' : Hash} {entry : PendingBatch}
    (hget : (tracker.recordAck d v).2.pending.get d' = some entry) : entry.AckedBy J me d' := by
  rcases tracker.recordAck_cases d v with heq | ⟨entry', hentry, heq⟩
  · exact h d' entry (heq ▸ hget)
  · rw [heq] at hget
    rcases GoMap.get_set_eq_some hget with ⟨rfl, rfl⟩ | ⟨-, hold⟩
    · obtain ⟨hdigest, hcreator, hacks⟩ := h _ entry' hentry
      refine ⟨hdigest, hcreator, fun v' hv' => ?_⟩
      rcases GoMap.has_set.mp hv' with rfl | hold
      · exact hJ
      · exact hacks v' hold
    · exact h d' entry hold

theorem AckTracker.trackBatch_pending {tracker : AckTracker}
    (h : ∀ d entry, tracker.pending.get d = some entry → entry.AckedBy J me d) {batch : Batch}
    (hbatch : batch.validatorID = me) {entry : PendingBatch}
    (hget : (tracker.trackBatch batch now).pending.get d = some entry) : entry.AckedBy J me d := by
  rcases tracker.trackBatch_cases batch now with heq | ⟨-, heq⟩
  · exact h d entry (heq ▸ hget)
  · rw [heq] at hget
    rcases GoMap.get_set_eq_some hget with ⟨rfl, rfl⟩ | ⟨-, hold⟩
    · exact ⟨rfl, hbatch, fun v hv => absurd (GoMap.has_iff.mp hv) (by simp)⟩
    · exact h d entry hold

variable [Crypto] {J : Hash → UInt16 → Prop} {me : UInt16} {q : Nat}

namespace Worker.AckedBy

variable {w w' : Worker}

omit [Crypto] in
theorem mono {J' : Hash → UInt16 → Prop} (h : w.AckedBy J me q)
    (hle : ∀ d v, J d v → J' d v) : w.AckedBy J' me q :=
  ⟨h.validatorID, h.quorum, fun d entry hget =>
    ⟨(h.pending d entry hget).digest, (h.pending d entry hget).creator,
      fun v hv => hle d v ((h.pending d entry hget).acks v hv)⟩⟩

omit [Crypto] in
theorem recordAck (h : w.AckedBy J me q) (hJ : J d v) :
    { w with ackTracker := (w.ackTracker.recordAck d v).2 }.AckedBy J me q :=
  ⟨h.validatorID, (w.ackTracker.recordAck_fields d v).2.trans h.quorum,
    fun _ _ hget => AckTracker.recordAck_pending h.pending hJ hget⟩

omit [Crypto] in
theorem creates (h : w.AckedBy J me q) (hself : ∀ d, J d me) {batch : Batch}
    (hcreator : batch.validatorID = w.validatorID) (now : Int) :
    { w with ackTracker :=
      ((w.ackTracker.trackBatch batch now).recordAck batch.digest w.validatorID).2
      }.AckedBy J me q := by
  have htracked : { w with ackTracker := w.ackTracker.trackBatch batch now }.AckedBy J me q :=
    ⟨h.validatorID, (w.ackTracker.trackBatch_fields batch now).2.trans h.quorum,
      fun _ _ hget => AckTracker.trackBatch_pending h.pending (hcreator.trans h.validatorID) hget⟩
  exact htracked.recordAck (h.validatorID ▸ hself _)

theorem rule (hself : ∀ d, J d me) : Pool.WorkerRule me q (Worker.AckedBy J me q) := fun _ =>
  { joins _ _ := ⟨rfl, rfl, fun _ _ hget => absurd hget (by
      simp [Worker.setRound, Worker.new, AckTracker.new])⟩
    requeued h hw := by
      obtain ⟨_, _, _, _, rfl⟩ := hw.same
      exact ⟨h.validatorID, h.quorum, h.pending⟩
    creates _ now h hcreator := h.creates hself hcreator now
    timesOut now h := ⟨h.validatorID, h.quorum, fun d entry hget =>
      h.pending d entry (GoMap.get_filter_eq_some.mp hget).1⟩ }

end Worker.AckedBy

end

theorem Primary.mem_splitReady {maxBatches : Nat} {ready queue : List BatchDigest}
    {ref : BatchDigest} (h : ref ∈ (Primary.splitReady hasAckQuorum maxBatches ready queue).1) :
    ref ∈ ready ∨ hasAckQuorum ref.digest = true := by
  induction queue generalizing ready with
  | nil => exact .inl h
  | cons d queue ih =>
    rw [splitReady] at h
    split at h
    · next htake =>
        rcases ih h with hmem | hack
        · rcases List.mem_append.mp hmem with hold | hnew
          · exact .inl hold
          · rw [List.mem_singleton.mp hnew]
            exact .inr (Bool.and_eq_true_iff.mp htake).2
        · exact .inr hack
    · exact ih h

section

variable [Crypto] [SliceSort] {CS : Type} [CertificateStore CS]

theorem Primary.mem_nextHeader {κ : Type} {p : Primary} {certStore : CS} {sink : CertSink κ CS}
    {k : κ} {order : IterOrder Vote} {header : Header}
    (h : (p.tryCreateHeader certStore sink k hasAckQuorum order now).1 = some header) :
    header ∈ p.nextHeader certStore hasAckQuorum now := by
  unfold tryCreateHeader at h
  split at h
  · cases h
  · split at h
    · cases h
    · dsimp only at h
      split at h
      · cases h
      · next header' hb =>
          cases h
          exact hb

theorem Primary.acked_of_nextHeader {p : Primary} {certStore : CS} {header : Header}
    (h : header ∈ p.nextHeader certStore hasAckQuorum now) {ref : BatchDigest}
    (href : ref ∈ header.batchRefs) : hasAckQuorum ref.digest = true := by
  obtain ⟨sig, -, rfl⟩ := buildHeader_eq_some h
  exact (mem_splitReady href).resolve_left (by simp)

end

/-! ## The node

An acknowledgment that was received stays received in a longer run. What is new in a step is the
validator's own, or came with a message that verified. -/

namespace Looseberry

variable [Crypto] {BS CS TI : Type}

/-- An acknowledgment of a batch was received whose signature verified under the
validator set of that moment, which is the present one if there was no update since. -/
def AckReceived (l : Looseberry BS CS TI) (past : Past BS CS TI) (d : Hash) (v : UInt16) :
    Prop :=
  ∃ before l' msg env since,
    past = before ++ (l', (.batchAckMessage msg, env)) :: since ∧
    msg.batchDigest = d ∧ msg.validator = v ∧
    l'.validatorSet.verifySignature v (batchAckSignBytes d v msg.round) msg.signature = true ∧
    ((∀ e ∈ since, ∀ vs, e.2.1 ≠ .updateValidatorSet vs) → l'.validatorSet = l.validatorSet)

/-- The acknowledgments the node has recorded. -/
def Acked (l : Looseberry BS CS TI) (past : Past BS CS TI) : Prop :=
  l.pool.Staffed l.cfg.validatorIndex l.validatorSet.quorum
    (Worker.AckedBy (fun d v => v = l.cfg.validatorIndex ∨ l.AckReceived past d v)
      l.cfg.validatorIndex l.validatorSet.quorum)

variable {l : Looseberry BS CS TI} {P : Worker → Prop}

theorem started_staffed (h : l.Started)
    (hP : Pool.WorkerRule l.cfg.validatorIndex l.validatorSet.quorum P) :
    l.pool.Staffed l.cfg.validatorIndex l.validatorSet.quorum P := by
  obtain ⟨cfg, vs, batchStore, certStore, txIndex, now, rfl⟩ := h
  exact ((Pool.Hired.new _ _).start (hP _)).toStaffed

theorem started_acked (h : l.Started) : l.Acked [] :=
  started_staffed h (Worker.AckedBy.rule fun _ => .inl rfl)

variable [SliceSort] [BatchStore BS] [CertificateStore CS] [TxIndex TI]

/-- The same validator, with the same validators around it and the same pool. -/
structure SamePool (l l' : Looseberry BS CS TI) : Prop where
  cfg : l'.cfg = l.cfg
  validatorSet : l'.validatorSet = l.validatorSet
  pool : l'.pool = l.pool

theorem step_samePool (l : Looseberry BS CS TI) (ev : Event × Env)
    (h : poolEvent ev.1 = false) : l.SamePool (l.step ev).1 := by
  cases hquiet : quiet ev.1 with
  | true =>
    obtain ⟨_, _, _, _, _, _, heq, -, -, hpool⟩ := l.step_eq_of_quiet ev hquiet
    rw [heq]
    exact ⟨rfl, rfl, hpool h⟩
  | false =>
    obtain ⟨ev, env⟩ := ev
    cases ev with
    | certificateMessage cert =>
      obtain ⟨_, _, _, _, heq⟩ := l.handleCertificateMessage_eq env cert
      show l.SamePool (l.handleCertificateMessage env cert)
      rw [heq]
      exact ⟨rfl, rfl, rfl⟩
    | syncResponse resp sender =>
      obtain ⟨_, _, _, _, _, heq⟩ := foldl_handleCertificateMessage_eq env
        (l.takeSyncResponse resp sender).1 (l.takeSyncResponse resp sender).2
      show l.SamePool (l.handleSyncResponse env resp sender)
      rw [handleSyncResponse, heq]
      exact ⟨rfl, rfl, rfl⟩
    | notifyCommitted | gcTick | updateValidatorSet => exact absurd h (by simp [poolEvent])
    | voteMessage | headerTick | voteCleanupTick => exact ⟨rfl, rfl, rfl⟩
    | _ => exact absurd hquiet (by simp [quiet])

/-- Only an update changes the validators a node knows of, and nothing who it is. -/
theorem step_validatorSet (l : Looseberry BS CS TI) (ev : Event × Env) :
    (l.step ev).1.cfg = l.cfg ∧
      ((∀ vs, ev.1 ≠ .updateValidatorSet vs) →
        (l.step ev).1.validatorSet = l.validatorSet) := by
  cases hquiet : quiet ev.1 with
  | true =>
    obtain ⟨_, _, _, _, _, _, heq, -⟩ := l.step_eq_of_quiet ev hquiet
    rw [heq]
    exact ⟨rfl, fun _ => rfl⟩
  | false =>
    cases hpool : poolEvent ev.1 with
    | false =>
      exact ⟨(l.step_samePool ev hpool).cfg, fun _ => (l.step_samePool ev hpool).validatorSet⟩
    | true =>
      obtain ⟨ev, env⟩ := ev
      cases ev with
      | updateValidatorSet vs => exact ⟨rfl, fun h => absurd rfl (h vs)⟩
      | notifyCommitted round =>
        obtain ⟨_, _, heq⟩ := l.notifyCommitted_eq env round
        show (l.notifyCommitted env round).1.cfg = l.cfg ∧
          (_ → (l.notifyCommitted env round).1.validatorSet = l.validatorSet)
        rw [heq]
        exact ⟨rfl, fun _ => rfl⟩
      | gcTick => exact ⟨rfl, fun _ => rfl⟩
      | _ => exact absurd hpool (by simp [quiet, poolEvent] at hquiet ⊢)

theorem AckReceived.step {past : Past BS CS TI} (h : l.AckReceived past d v) (ev : Event × Env) :
    (l.step ev).1.AckReceived (past ++ [(l, ev)]) d v := by
  obtain ⟨before, l', msg, env, since, rfl, hdigest, hvalidator, hsigned, hset⟩ := h
  refine ⟨before, l', msg, env, since ++ [(l, ev)], by simp, hdigest, hvalidator, hsigned,
    fun hnone => ?_⟩
  rw [hset fun e he => hnone e (List.mem_append_left _ he)]
  exact ((l.step_validatorSet ev).2 (hnone (l, ev) (by simp))).symm

omit [SliceSort] in
/-- Recovery hands transactions to the pool, no acknowledgments. -/
theorem gcTick_pool {Φ : Pool → Prop}
    (hadd : ∀ p (txIndex : TI) txs, Φ p → Φ (p.addTxs txIndex txs)) (h : Φ l.pool) (env : Env) :
    Φ (l.gcTick env).1.pool := by
  refine l.gc.collect_sink (K := Φ) l.gcTargets env.gc l.txRecovery
    (fun callback hcallback pool txIndex txs hpool => ?_) h
  unfold txRecovery at hcallback
  split at hcallback
  · cases hcallback
    exact hadd pool txIndex txs hpool
  · cases hcallback

/-- What holds of every worker, however many there are, is kept by every event that does
not change the quorum, if it is by the acknowledgments that are received. -/
theorem step_hired {me : UInt16} {q : Nat} {c : PoolConfig} (hP : Pool.HiringRule me q c.worker P)
    (h : l.pool.Hired me q c P) (ev : Event × Env) (hvs : ∀ vs, ev.1 ≠ .updateValidatorSet vs)
    (hack : ∀ msg, ev.1 = .batchAckMessage msg →
      l.validatorSet.verifySignature msg.validator
        (batchAckSignBytes msg.batchDigest msg.validator msg.round) msg.signature = true →
      ∀ w, P w → P { w with
        ackTracker := (w.ackTracker.recordAck msg.batchDigest msg.validator).2 }) :
    (l.step ev).1.pool.Hired me q c P := by
  cases hpool : poolEvent ev.1 with
  | false =>
    rw [(l.step_samePool ev hpool).pool]
    exact h
  | true =>
    obtain ⟨ev, env⟩ := ev
    cases ev with
    | addTx tx =>
      show (l.addTx tx).2.pool.Hired _ _ _ _
      unfold addTx
      split
      · exact h
      · exact h.turned (Pool.turned_addTx hP.toKeepingRule _ _ _)
    | flush => exact (h.stop _ _ _).start hP
    | workerTick idx => exact h.turned (Pool.turned_tick hP.toKeepingRule _ _ _ _ _)
    | scaleUp => exact h.scaleUp hP
    | scaleDown => exact h.scaleDown hP _ _ _
    | ackCleanupTick => exact h.turned (Pool.turned_map fun _ _ => hP.timesOut _)
    | gcTick => exact gcTick_pool (fun _ txIndex txs hp => hp.addTxs hP txIndex txs) h env
    | notifyCommitted round =>
      obtain ⟨_, _, heq⟩ := l.notifyCommitted_eq env round
      show (l.notifyCommitted env round).1.pool.Hired _ _ _ _
      rw [heq]
      exact gcTick_pool (l := l.markCommitted round)
        (fun _ txIndex txs hp => hp.addTxs hP txIndex txs) h env
    | updateValidatorSet vs => exact absurd rfl (hvs vs)
    | batchAckMessage msg =>
      show (l.handleBatchAckMessage msg).pool.Hired _ _ _ _
      unfold handleBatchAckMessage
      dsimp only
      split
      · next hsigned => exact h.turned (Pool.turned_recordAck (hack msg rfl hsigned))
      · exact h
    | _ => exact absurd hpool (by simp [poolEvent])

theorem step_staffed {me : UInt16} {q : Nat} (hP : Pool.WorkerRule me q P)
    (h : l.pool.Staffed me q P) (ev : Event × Env) (hvs : ∀ vs, ev.1 ≠ .updateValidatorSet vs)
    (hack : ∀ msg, ev.1 = .batchAckMessage msg →
      l.validatorSet.verifySignature msg.validator
        (batchAckSignBytes msg.batchDigest msg.validator msg.round) msg.signature = true →
      ∀ w, P w → P { w with
        ackTracker := (w.ackTracker.recordAck msg.batchDigest msg.validator).2 }) :
    (l.step ev).1.pool.Staffed me q P :=
  (step_hired (hP _) ⟨h, rfl⟩ ev hvs hack).toStaffed

theorem step_acked {past : Past BS CS TI} (h : l.Acked past) (ev : Event × Env) :
    (l.step ev).1.Acked (past ++ [(l, ev)]) := by
  -- What was accounted for before still is, whatever becomes of the pool.
  have hmono : l.pool.Staffed l.cfg.validatorIndex l.validatorSet.quorum
      (Worker.AckedBy (fun d v => v = l.cfg.validatorIndex ∨
        (l.step ev).1.AckReceived (past ++ [(l, ev)]) d v) l.cfg.validatorIndex
        l.validatorSet.quorum) :=
    ⟨h.validatorID, h.quorum, fun w hw =>
      (h.workers w hw).mono fun d v hJ => hJ.imp_right fun hack => hack.step ev⟩
  unfold Acked
  rw [(l.step_validatorSet ev).1]
  rcases validators_cases ev with ⟨vs, env, rfl⟩ | hvs
  · have hhired : l.pool.Hired _ _ l.pool.cfg _ := ⟨hmono, rfl⟩
    exact (hhired.updateQuorum fun w hw => ⟨hw.validatorID, rfl, hw.pending⟩).toStaffed
  · rw [(l.step_validatorSet ev).2 hvs]
    refine step_staffed (Worker.AckedBy.rule fun _ => .inl rfl) hmono ev hvs
      fun msg hmsg hsigned w hw => hw.recordAck (.inr ?_)
    obtain ⟨ev, env⟩ := ev
    cases hmsg
    exact ⟨past, l, msg, env, [], rfl, rfl, rfl, hsigned,
      fun _ => ((l.step_validatorSet (.batchAckMessage msg, env)).2 hvs).symm⟩

/-- In every run, each batch that a new header refers to is tracked by a worker, made by
this validator, and acknowledged by a quorum of the present validators' size; each
acknowledgment is the validator's own, or was received and verified. -/
theorem header_batches_acked {l : Looseberry BS CS TI} {past : Past BS CS TI}
    (h : PastReach (fun _ => True) (fun _ _ _ => True) l past) {env : Env} {header : Header}
    (hcreated : .broadcastHeader header ∈ (l.step (.headerTick, env)).2) {ref : BatchDigest}
    (href : ref ∈ header.batchRefs) :
    ∃ w ∈ l.pool.workers, ∃ entry, w.ackTracker.pending.get ref.digest = some entry ∧
      entry.batch.digest = ref.digest ∧ entry.batch.validatorID = l.cfg.validatorIndex ∧
      l.validatorSet.quorum ≤ entry.acks.len ∧
      ∀ v, entry.acks.has v = true →
        v = l.cfg.validatorIndex ∨ l.AckReceived past ref.digest v := by
  have hacked : l.Acked past := Run.Reach.invariant
    (I := fun (l : Looseberry BS CS TI) past => l.Acked past)
    (fun _ h0 => started_acked h0.1) (fun _ _ ev hl _ => step_acked hl ev) h
  have hnext : header ∈ l.primary.nextHeader l.certStore l.pool.hasBatchAckQuorum env.now :=
    Primary.mem_nextHeader (mem_headerTick.mp hcreated)
  have hquorum := Primary.acked_of_nextHeader hnext href
  obtain ⟨w, hw, hwq⟩ := List.any_eq_true.mp hquorum
  have hwacked := hacked.workers w hw
  unfold AckTracker.hasQuorum at hwq
  split at hwq
  · cases hwq
  · next entry hentry =>
      obtain ⟨hdigest, hcreator, hacks⟩ := hwacked.pending _ entry hentry
      rw [decide_eq_true_eq, hwacked.quorum] at hwq
      exact ⟨w, hw, entry, hentry, hdigest, hcreator, hwq, hacks⟩

end Looseberry

section

open IdealScheme

/-- The batch a worker of node `0` makes of one transaction at time `2`. -/
def ackedBatch : Batch := .new 0 0 0 [[7]] 2

def idealAck (digest : Hash) (voter : UInt16) : BatchAckMessage :=
  { batchDigest := digest, validator := voter, round := 0
    signature := BitVec.ofNat 256 voter.toNat ++ batchAckSignBytes digest voter 0 }

/-- Two of the other three validators acknowledge it. -/
def ackedRun : List Event :=
  [.addTx [7], .workerTick 0, .batchAckMessage (idealAck ackedBatch.digest 1),
    .batchAckMessage (idealAck ackedBatch.digest 2)]

theorem header_batches_acked_by_quorum :
    ∃ (l : IdealNode) (past : Looseberry.Past _ _ _),
      Looseberry.PastReach (fun _ => True) (fun _ _ _ => True) l past ∧
      ∃ header, Output.broadcastHeader header ∈ (l.step (.headerTick, idealEnv 9)).2 ∧
        header.batchRefs = [ackedBatch.getDigest] ∧
        ∃ w ∈ l.pool.workers, ∃ entry,
          w.ackTracker.pending.get ackedBatch.digest = some entry ∧ 3 ≤ entry.acks.len := by
  have hrun : Looseberry.PastReach (fun _ => True) (fun _ _ _ => True)
      (idealPast 0 10 ackedRun).1 (idealPast 0 10 ackedRun).2 :=
    reach_idealPast trivial (.of_forall (fun _ _ _ => trivial) _ _ _)
  have hquorum : (idealPast 0 10 ackedRun).1.validatorSet.quorum = 3 := by decide +kernel
  have hheader : ((idealPast 0 10 ackedRun).1.primary.tryCreateHeader
      (idealPast 0 10 ackedRun).1.certStore Looseberry.onCertificateFormed
      { dag := (idealPast 0 10 ackedRun).1.dag, flow := (idealPast 0 10 ackedRun).1.flow,
        certs := [] } (idealPast 0 10 ackedRun).1.pool.hasBatchAckQuorum .listed 9).1.map
      (·.batchRefs) = some [ackedBatch.getDigest] := by decide +kernel
  obtain ⟨header, hcreated, hrefs⟩ := Option.map_eq_some_iff.mp hheader
  have hout : Output.broadcastHeader header ∈
      ((idealPast 0 10 ackedRun).1.step (.headerTick, idealEnv 9)).2 :=
    Looseberry.mem_headerTick.mpr hcreated
  have href : ackedBatch.getDigest ∈ header.batchRefs := by rw [hrefs]; simp
  obtain ⟨w, hw, entry, hentry, -, -, hacks, -⟩ :=
    Looseberry.header_batches_acked hrun hout href
  rw [hquorum] at hacks
  exact ⟨_, _, hrun, header, hout, hrefs, w, hw, entry, hentry, hacks⟩

end

end DagMempool
