import DagMempool.Proofs.AckGate
import DagMempool.Worker.Ideal

/-!
# How long acknowledgments are kept

A batch waits in the primary's queue until it has its acknowledgments, and these are
with the worker that made it. Nothing ties the two together: a tracker forgets a batch
after a time, a worker that is stopped takes its tracker with it, and a flush replaces
all of them, whether or not the batch is still queued. A batch that is forgotten has
no acknowledgments any more and gets no new ones, so that it stays in the queue for
good.

Where none of this happens to a batch that is queued, every batch in the queue is
tracked, and a quorum once reached lasts until the batch is taken for a header.
-/

namespace DagMempool

namespace AckTracker

variable {tracker : AckTracker} {d : Hash} {n : Nat}

theorem Holds.removeTimedOut (h : tracker.Holds d n) {now : Int}
    (hyoung : ∀ entry, tracker.pending.get d = some entry →
      now - tracker.timeout ≤ entry.createdAt) : (tracker.removeTimedOut now).Holds d n := by
  obtain ⟨entry, hget, hn⟩ := h
  refine ⟨entry, GoMap.get_filter_eq_some.mpr ⟨hget, ?_⟩, hn⟩
  have hle := hyoung entry hget
  simp only [Bool.not_eq_true', decide_eq_false_iff_not]
  omega

theorem holds_trackBatch (hopen : tracker.closed = false) (batch : Batch) (now : Int) :
    (tracker.trackBatch batch now).Holds batch.digest 0 := by
  rw [holds_zero]
  unfold trackBatch
  rw [hopen, if_neg (by simp)]
  split
  · next hhas => exact hhas
  · exact GoMap.has_set.mpr (.inl rfl)

theorem Holds.rule [Crypto] (d : Hash) (n : Nat) :
    Pool.KeepingRule fun w => w.ackTracker.Holds d n where
  requeued h hw := by
    obtain ⟨_, _, _, _, rfl⟩ := hw.same
    exact h
  creates batch now h _ := (h.trackBatch batch now).recordAck _ _

end AckTracker

/-- The tracker of a worker is open, and compares with the quorum. -/
def Worker.Counts (q : Nat) (w : Worker) : Prop :=
  w.ackTracker.closed = false ∧ w.ackTracker.quorum = q

theorem Worker.Counts.recordAck {q : Nat} {w : Worker} (h : w.Counts q) (d : Hash) (v : UInt16) :
    { w with ackTracker := (w.ackTracker.recordAck d v).2 }.Counts q := by
  obtain ⟨hclosed, hquorum⟩ := w.ackTracker.recordAck_fields d v
  exact ⟨hclosed.trans h.1, hquorum.trans h.2⟩

theorem Worker.counts_rule [Crypto] (me : UInt16) (q : Nat) :
    Pool.WorkerRule me q (Worker.Counts q) := fun _ =>
  { joins _ _ := ⟨rfl, rfl⟩
    requeued h hw := by
      obtain ⟨_, _, _, _, rfl⟩ := hw.same
      exact h
    creates := by
      intro w batch now h _
      obtain ⟨hclosed, hquorum⟩ := w.ackTracker.trackBatch_fields batch now
      have htracked : { w with ackTracker := w.ackTracker.trackBatch batch now }.Counts q :=
        ⟨hclosed.trans h.1, hquorum.trans h.2⟩
      exact htracked.recordAck _ _
    timesOut _ h := h }

/-! ## The pool

A batch is with the worker that made it. What a worker does keeps the acknowledgments it holds, so
the pool loses them only with a worker or to the clean-up. -/

namespace Pool

def Tracks (p : Pool) (d : Hash) : Prop :=
  ∃ w ∈ p.workers, w.ackTracker.pending.has d = true

/-- Some worker has the batch with at least so many acknowledgments. -/
def Holds (p : Pool) (d : Hash) (n : Nat) : Prop :=
  ∃ w ∈ p.workers, w.ackTracker.Holds d n

variable {p : Pool} {d : Hash} {n : Nat}

theorem holds_zero : p.Holds d 0 ↔ p.Tracks d := by
  unfold Holds Tracks
  simp only [AckTracker.holds_zero]

theorem hasBatchAckQuorum_iff (hq : ∀ w ∈ p.workers, w.ackTracker.quorum = n) :
    p.hasBatchAckQuorum d = true ↔ p.Holds d n := by
  unfold hasBatchAckQuorum Holds
  rw [List.any_eq_true]
  refine exists_congr fun w => and_congr_right fun hw => ?_
  rw [AckTracker.hasQuorum_iff, hq w hw]

namespace Holds

theorem turned (h : p.Holds d n) {p' : Pool}
    (ht : p.Turned (fun w => w.ackTracker.Holds d n) p') : p'.Holds d n := by
  obtain ⟨ws, hws, rfl⟩ := ht
  obtain ⟨w, hw, hh⟩ := h
  obtain ⟨w', hw', himp⟩ := exists_of_mem_left hws w hw
  exact ⟨w', hw', himp hh⟩

theorem scaleUp (h : p.Holds d n) : p.scaleUp.Holds d n := by
  unfold Pool.scaleUp
  split
  · exact h
  · split
    · exact h
    · obtain ⟨w, hw, hh⟩ := h
      exact ⟨w, List.mem_append_left _ hw, hh⟩

variable [Crypto] {BS TI : Type} [BatchStore BS] [TxIndex TI]

omit [BatchStore BS] in
theorem addTxs (h : p.Holds d n) (txIndex : TI) (txs : List Transaction) :
    (p.addTxs txIndex txs).Holds d n := by
  induction txs generalizing p with
  | nil => exact h
  | cons tx txs ih => exact ih (h.turned (turned_addTx (AckTracker.Holds.rule d n) p txIndex tx))

theorem scaleDown (h : p.Holds d n) (batchStore : BS) (txIndex : TI) (now : Int)
    (hlast : p.workers.length ≤ p.cfg.minWorkers ∨
      ∀ w, p.workers.getLast? = some w → w.ackTracker.pending.has d = false) :
    (p.scaleDown batchStore txIndex now).2.1.Holds d n := by
  unfold Pool.scaleDown
  split
  · exact h
  · split
    · exact h
    · next hmany =>
        split
        · exact h
        · next last hget =>
            obtain ⟨w, hw, hh⟩ := h
            have hrest : { p with workers := p.workers.dropLast }.Holds d n := by
              refine ⟨w, ?_, hh⟩
              rw [← List.dropLast_append_getLast? last hget] at hw
              rcases List.mem_append.mp hw with hrest | hgoes
              · exact hrest
              · obtain ⟨entry, hentry, -⟩ := hh
                have hhas := (hlast.resolve_left hmany) last hget
                rw [← List.mem_singleton.mp hgoes, GoMap.has, hentry] at hhas
                cases hhas
            exact hrest.addTxs _ _

end Holds

variable [Crypto] {BS TI : Type} [BatchStore BS] [TxIndex TI]

theorem tick_tracks (hopen : ∀ w ∈ p.workers, w.ackTracker.closed = false) {idx : Nat}
    {batchStore : BS} {txIndex : TI} {now : Int} {batch : Batch}
    (hbatch : batch ∈ (p.tick idx batchStore txIndex now).1) :
    (p.tick idx batchStore txIndex now).2.1.Holds batch.digest 0 := by
  unfold tick at hbatch ⊢
  split at hbatch
  · cases hbatch
  · next w hw =>
      have hbatch : batch ∈ (w.tryCreateBatch batchStore txIndex now).1.toList := hbatch
      obtain ⟨hlt, -⟩ := List.getElem?_eq_some_iff.mp hw
      refine ⟨_, List.mem_set hlt _, ?_⟩
      obtain ⟨w', ⟨⟨_, _, _, _, rfl⟩, -, -⟩, ⟨hnone, -⟩ | ⟨batch', -, hsome, heq⟩⟩ :=
        w.tryCreateBatch_cases batchStore txIndex now
      · rw [hnone] at hbatch
        cases hbatch
      · rw [hsome] at hbatch
        obtain rfl : batch = batch' := List.mem_singleton.mp hbatch
        rw [heq]
        exact (AckTracker.holds_trackBatch (hopen w (List.mem_of_getElem? hw)) batch now).recordAck
          _ _

theorem stop_fst (h : ∀ w ∈ p.workers, w.pending.size = 0) (batchStore : BS) (txIndex : TI)
    (now : Int) : (p.stop batchStore txIndex now).1 = [] := by
  have hall : ∀ (ws : List Worker) (batchStore : BS) (txIndex : TI),
      (∀ w ∈ ws, w.pending.size = 0) → (stopWorkers batchStore txIndex now ws).1 = [] := by
    intro ws
    induction ws with
    | nil => exact fun _ _ _ => rfl
    | cons w ws ih =>
      intro batchStore txIndex hws
      have hnone : (w.stop batchStore txIndex now).1 = none := by
        unfold Worker.stop
        split
        · rfl
        · unfold Worker.tryCreateBatch
          rw [if_pos (hws w List.mem_cons_self)]
      rw [stopWorkers, hnone]
      exact ih _ _ fun w hw => hws w (List.mem_cons_of_mem _ hw)
  unfold stop
  split
  · rfl
  · exact hall p.workers batchStore txIndex h

end Pool

/-! ## The node

Two things are followed through a run: that what is in the queue is tracked, and that a count
reached for something in the queue stays. The events that could break either are the ones
`KeepsAcks` is about. -/

namespace Looseberry

variable [Crypto] [SliceSort] {BS CS TI : Type}
variable [BatchStore BS] [CertificateStore CS] [TxIndex TI]

/-- The event does not make a tracker forget this batch: it has not timed out, and is not
with a worker that is stopped. -/
def SparesAcks (l : Looseberry BS CS TI) (ev : Event × Env) (d : Hash) : Prop :=
  match ev.1 with
  | .ackCleanupTick => ∀ w ∈ l.pool.workers, ∀ entry, w.ackTracker.pending.get d = some entry →
      ev.2.now - w.ackTracker.timeout ≤ entry.createdAt
  | .scaleDown => l.pool.workers.length ≤ l.pool.cfg.minWorkers ∨
      ∀ w, l.pool.workers.getLast? = some w → w.ackTracker.pending.has d = false
  | .flush => ∀ w ∈ l.pool.workers, w.ackTracker.pending.has d = false
  | _ => True

/-- The event spares every batch that is queued, and a flush finds nothing to make
batches of. -/
def KeepsAcks (l : Looseberry BS CS TI) (ev : Event × Env) : Prop :=
  (∀ ref ∈ l.primary.batchDigests, l.SparesAcks ev ref.digest) ∧
    (ev.1 = .flush → ∀ w ∈ l.pool.workers, w.pending.size = 0)

variable {l : Looseberry BS CS TI} {ev : Event × Env}

theorem step_holds {d : Hash} {n : Nat} (h : l.pool.Holds d n) (hspares : l.SparesAcks ev d) :
    (l.step ev).1.pool.Holds d n := by
  cases hpool : poolEvent ev.1 with
  | false =>
    rw [(l.step_samePool ev hpool).pool]
    exact h
  | true =>
    obtain ⟨ev, env⟩ := ev
    cases ev with
    | addTx tx =>
      show (l.addTx tx).2.pool.Holds d n
      unfold addTx
      split
      · exact h
      · exact h.turned (Pool.turned_addTx (AckTracker.Holds.rule d n) _ _ _)
    | flush =>
      obtain ⟨w, hw, entry, hentry, -⟩ := h
      have hhas := hspares w hw
      rw [GoMap.has, hentry] at hhas
      cases hhas
    | workerTick idx =>
      exact h.turned (Pool.turned_tick (AckTracker.Holds.rule d n) _ _ _ _ _)
    | scaleUp => exact h.scaleUp
    | scaleDown => exact h.scaleDown _ _ _ hspares
    | ackCleanupTick =>
      exact h.turned (Pool.turned_map fun w hw hh => hh.removeTimedOut (hspares w hw))
    | gcTick =>
      exact gcTick_pool (Φ := (·.Holds d n)) (fun _ (_ : TI) txs hp => hp.addTxs _ txs) h env
    | notifyCommitted round =>
      obtain ⟨_, _, heq⟩ := l.notifyCommitted_eq env round
      show (l.notifyCommitted env round).1.pool.Holds d n
      rw [heq]
      exact gcTick_pool (Φ := (·.Holds d n)) (l := l.markCommitted round)
        (fun _ (_ : TI) txs hp => hp.addTxs _ txs) h env
    | updateValidatorSet vs =>
      obtain ⟨w, hw, hh⟩ := h
      exact ⟨_, List.mem_map_of_mem hw, hh⟩
    | batchAckMessage msg =>
      show (l.handleBatchAckMessage msg).pool.Holds d n
      unfold handleBatchAckMessage
      dsimp only
      split
      · exact h.turned (Pool.turned_recordAck fun _ hh => hh.recordAck _ _)
      · exact h
    | _ => exact absurd hpool (by simp [poolEvent])

theorem mem_batchDigests_step (hopen : ∀ w ∈ l.pool.workers, w.ackTracker.closed = false)
    (hev : l.KeepsAcks ev) {ref : BatchDigest} (href : ref ∈ (l.step ev).1.primary.batchDigests) :
    ref ∈ l.primary.batchDigests ∨ (l.step ev).1.pool.Holds ref.digest 0 := by
  cases hqueues : queues ev.1 with
  | false =>
    obtain ⟨batchDigests, ⟨_, _, _, heq⟩, hsame⟩ := l.step_primary ev
    rw [heq, hsame hqueues] at href
    exact .inl href
  | true =>
    obtain ⟨ev, env⟩ := ev
    cases ev with
    | workerTick idx =>
      have hqueue : ref ∈ (queueBatches l.primary
          (l.pool.tick idx l.batchStore l.txIndex env.now).1).batchDigests := href
      rw [queueBatches_eq] at hqueue
      rcases List.mem_append.mp hqueue with hold | hnew
      · exact .inl hold
      · obtain ⟨batch, hbatch, rfl⟩ := List.mem_map.mp hnew
        exact .inr (Pool.tick_tracks hopen hbatch)
    | scaleDown =>
      have hqueue : ref ∈ (queueBatches l.primary
          (l.pool.scaleDown l.batchStore l.txIndex env.now).1).batchDigests := href
      rw [Pool.scaleDown_fst] at hqueue
      exact .inl hqueue
    | flush =>
      have hqueue : ref ∈ (queueBatches l.primary
          (l.pool.stop l.batchStore l.txIndex env.now).1).batchDigests := href
      rw [Pool.stop_fst (hev.2 rfl)] at hqueue
      exact .inl hqueue
    | headerTick =>
      obtain ⟨_, _, rest, -, hticked⟩ := l.headerTick_ticked env
      have hqueue : ref ∈ (l.headerTick env).1.primary.batchDigests := href
      rw [hticked.batchDigests] at hqueue
      exact .inl (hticked.sublist.2.subset hqueue)
    | _ => exact absurd hqueues (by simp [queues])

def readyBatches (l : Looseberry BS CS TI) : List BatchDigest :=
  (Primary.splitReady l.pool.hasBatchAckQuorum l.primary.cfg.maxBatchesPerHeader []
    l.primary.batchDigests).1

/-- A header tick takes the batch off the queue, for the header it broadcasts; or for the
one it makes of the batches that are ready, this one among them, and cannot sign. -/
def TakesBatch (l : Looseberry BS CS TI) (ev : Event × Env) (d : Hash) : Prop :=
  ev.1 = .headerTick ∧
    ((∃ header, .broadcastHeader header ∈ (l.step ev).2 ∧
        d ∈ header.batchRefs.map (·.digest)) ∨
      d ∈ l.readyBatches.map (·.digest) ∧ ∃ err, l.primary.signer.sign
        (l.primary.unsigned l.certStore l.readyBatches ev.2.now).digest = .error err)

omit [BatchStore BS] [TxIndex TI] in
/-- What leaves the queue is in the header that is broadcast, or was to be in it. -/
theorem ticked_takes {digests rest : List BatchDigest} {env : Env}
    {out : Option Header × Primary}
    (h : l.primary.Ticked l.certStore l.pool.hasBatchAckQuorum env.now out digests rest)
    {ref : BatchDigest} (href : ref ∈ digests) :
    (∃ header, out.1 = some header ∧ ref.digest ∈ header.batchRefs.map (·.digest)) ∨
      ref.digest ∈ l.readyBatches.map (·.digest) ∧ ∃ err, l.primary.signer.sign
        (l.primary.unsigned l.certStore l.readyBatches env.now).digest = .error err := by
  have hready : l.readyBatches = digests := by
    rcases h.split with ⟨rfl, -⟩ | hsplit
    · cases href
    · exact congrArg Prod.fst hsplit
  cases hout : out.1 with
  | some header =>
    obtain ⟨sig, rfl⟩ := h.made header hout
    exact .inl ⟨_, rfl, List.mem_map_of_mem href⟩
  | none =>
    rw [hready]
    refine .inr ⟨List.mem_map_of_mem href, (h.failed hout).resolve_left ?_⟩
    exact List.ne_nil_of_mem href

theorem queued_of_not_takesBatch {d : Hash} (hqueued : d ∈ l.primary.batchDigests.map (·.digest))
    (htakes : ¬ l.TakesBatch ev d) : d ∈ (l.step ev).1.primary.batchDigests.map (·.digest) := by
  cases hqueues : queues ev.1 with
  | false =>
    obtain ⟨batchDigests, ⟨_, _, _, heq⟩, hsame⟩ := l.step_primary ev
    rw [heq, hsame hqueues]
    exact hqueued
  | true =>
    obtain ⟨ev, env⟩ := ev
    have hgrows : ∀ batches : List Batch,
        d ∈ (queueBatches l.primary batches).batchDigests.map (·.digest) := by
      intro batches
      rw [queueBatches_eq, List.map_append]
      exact List.mem_append_left _ hqueued
    cases ev with
    | workerTick | scaleDown | flush => exact hgrows _
    | headerTick =>
      obtain ⟨_, digests, rest, hmade, hticked⟩ := l.headerTick_ticked env
      show d ∈ (l.headerTick env).1.primary.batchDigests.map (·.digest)
      rw [hticked.batchDigests]
      obtain ⟨ref, href, rfl⟩ := List.mem_map.mp hqueued
      rcases List.mem_append.mp (hticked.perm.mem_iff.mpr href) with hdigests | hrest
      · refine absurd ⟨rfl, (ticked_takes hticked hdigests).imp_left ?_⟩ htakes
        rintro ⟨header, hheader, hmem⟩
        exact ⟨header, (hmade header).mpr hheader, hmem⟩
      · exact List.mem_map_of_mem hrest
    | _ => exact absurd hqueues (by simp [queues])

/-- The trackers compare with the quorum of the validators, and every batch that is
queued is tracked. -/
structure QueueTracked (l : Looseberry BS CS TI) : Prop where
  staffed : l.pool.Staffed l.cfg.validatorIndex l.validatorSet.quorum
    (Worker.Counts l.validatorSet.quorum)
  queued : ∀ ref ∈ l.primary.batchDigests, l.pool.Holds ref.digest 0

omit [SliceSort] [BatchStore BS] [CertificateStore CS] [TxIndex TI] in
theorem started_queueTracked (h : l.Started) : l.QueueTracked := by
  refine ⟨started_staffed h (Worker.counts_rule _ _), ?_⟩
  obtain ⟨cfg, vs, batchStore, certStore, txIndex, now, rfl⟩ := h
  exact fun ref href => absurd href (by simp [Looseberry.start, Primary.new])

theorem step_queueTracked (h : l.QueueTracked) (hev : l.KeepsAcks ev) :
    (l.step ev).1.QueueTracked := by
  refine ⟨?_, fun ref href => ?_⟩
  · rw [(l.step_validatorSet ev).1]
    rcases validators_cases ev with ⟨vs, env, rfl⟩ | hvs
    · have hhired : l.pool.Hired _ _ l.pool.cfg _ := ⟨h.staffed, rfl⟩
      exact (hhired.updateQuorum fun w hw => ⟨hw.1, rfl⟩).toStaffed
    · rw [(l.step_validatorSet ev).2 hvs]
      exact step_staffed (Worker.counts_rule _ _) h.staffed ev hvs
        fun msg _ _ w hw => hw.recordAck _ _
  · have hopen : ∀ w ∈ l.pool.workers, w.ackTracker.closed = false :=
      fun w hw => (h.staffed.workers w hw).1
    rcases mem_batchDigests_step hopen hev href with hold | hnew
    · exact step_holds (h.queued ref hold) (hev.1 ref hold)
    · exact hnew

omit [SliceSort] [BatchStore BS] [CertificateStore CS] [TxIndex TI] in
theorem QueueTracked.hasBatchAckQuorum_iff (h : l.QueueTracked) {d : Hash} :
    l.pool.hasBatchAckQuorum d = true ↔ l.pool.Holds d l.validatorSet.quorum :=
  Pool.hasBatchAckQuorum_iff fun w hw => (h.staffed.workers w hw).2

/-- In a run that keeps acknowledgments, a quorum that a queued batch has lasts until the
batch is taken, as long as the quorum is the same. -/
theorem quorum_lasts (h : l.QueueTracked) {d : Hash} {q : Nat}
    (hqueued : d ∈ l.primary.batchDigests.map (·.digest)) (hq : l.validatorSet.quorum = q)
    (hholds : l.pool.Holds d q) {past : Past BS CS TI} {later : List (Event × Env)}
    (hlater : Run.AllOk (Run.history step) (fun l _ ev => l.KeepsAcks ev) l past later)
    (hvs : ∀ e ∈ later, ∀ vs, e.1 = .updateValidatorSet vs → vs.quorum = q) :
    (Run.exec (Run.history step) l [] later).1.pool.hasBatchAckQuorum d = true ∨
      ∃ e ∈ (Run.exec (Run.history step) l [] later).2, e.1.TakesBatch e.2 d := by
  induction later generalizing l past with
  | nil => exact .inl (h.hasBatchAckQuorum_iff.mpr (hq ▸ hholds))
  | cons ev later ih =>
    obtain ⟨hev, hrest⟩ := hlater
    rw [Run.exec_history_cons]
    by_cases htakes : l.TakesBatch ev d
    · exact .inr ⟨(l, ev), List.mem_cons_self, htakes⟩
    · have hspares : l.SparesAcks ev d := by
        obtain ⟨ref, href, rfl⟩ := List.mem_map.mp hqueued
        exact hev.1 ref href
      have hq' : (l.step ev).1.validatorSet.quorum = q := by
        rcases validators_cases ev with ⟨vs, env, rfl⟩ | hset
        · exact hvs _ List.mem_cons_self vs rfl
        · rw [(l.step_validatorSet ev).2 hset]
          exact hq
      rcases ih (step_queueTracked h hev) (queued_of_not_takesBatch hqueued htakes) hq'
        (step_holds hholds hspares) hrest (fun e he => hvs e (List.mem_cons_of_mem _ he)) with
        hlasts | ⟨e, he, htakes'⟩
      · exact .inl hlasts
      · exact .inr ⟨e, List.mem_cons_of_mem _ he, htakes'⟩

/-- In every run that keeps acknowledgments, each queued batch is tracked by some worker,
and a quorum it has reached it has until it is taken for a header. -/
theorem queued_acks_last {l : Looseberry BS CS TI} {log : List Output}
    (h : Reach (fun _ => True) (fun l _ ev => l.KeepsAcks ev) l log) :
    (∀ ref ∈ l.primary.batchDigests, l.pool.Tracks ref.digest) ∧
    ∀ d ∈ l.primary.batchDigests.map (·.digest), l.pool.hasBatchAckQuorum d = true →
      ∀ later, Run.AllOk (Run.history step) (fun l _ ev => l.KeepsAcks ev) l [] later →
        (∀ e ∈ later, ∀ vs, e.1 = .updateValidatorSet vs →
          vs.quorum = l.validatorSet.quorum) →
        (Run.exec (Run.history step) l [] later).1.pool.hasBatchAckQuorum d = true ∨
          ∃ e ∈ (Run.exec (Run.history step) l [] later).2, e.1.TakesBatch e.2 d := by
  have htracked : l.QueueTracked := h.invariant (I := fun l _ => l.QueueTracked)
    (fun l hl => started_queueTracked hl.1) fun l _ ev hl hok => step_queueTracked hl hok
  refine ⟨fun ref href => Pool.holds_zero.mp (htracked.queued ref href), ?_⟩
  intro d hd hquorum later hlater hvs
  exact quorum_lasts htracked hd rfl (htracked.hasBatchAckQuorum_iff.mp hquorum) hlater hvs

end Looseberry

section

open IdealScheme

theorem AckTracker.young_of_values {tracker : AckTracker} {now : Int}
    (h : (tracker.pending.values.all fun entry =>
      decide (now - tracker.timeout ≤ entry.createdAt)) = true) {d : Hash}
    {entry : PendingBatch} (hget : tracker.pending.get d = some entry) :
    now - tracker.timeout ≤ entry.createdAt :=
  of_decide_eq_true (List.all_eq_true.mp h entry (GoMap.mem_values.mpr ⟨d, hget⟩))

theorem queued_acks_last_ideal :
    ackedBatch.getDigest ∈ (idealExec 0 10 ackedRun).1.primary.batchDigests ∧
    (idealExec 0 10 ackedRun).1.pool.hasBatchAckQuorum ackedBatch.digest = true ∧
    (idealExec 0 10 ackedRun).1.pool.Tracks ackedBatch.digest ∧
    (((idealExec 0 10 ackedRun).1.step (.ackCleanupTick, idealEnv 9)).1.pool.hasBatchAckQuorum
        ackedBatch.digest = true ∨
      (idealExec 0 10 ackedRun).1.TakesBatch (.ackCleanupTick, idealEnv 9)
        ackedBatch.digest) := by
  have hrun : Looseberry.Reach (fun _ => True) (fun l _ ev => l.KeepsAcks ev)
      (idealExec 0 10 ackedRun).1 (idealExec 0 10 ackedRun).2 := by
    refine reach_idealExec 0 10 ackedRun trivial ?_
    refine ⟨?_, ?_, ?_, ?_, trivial⟩ <;> exact ⟨fun _ _ => trivial, fun h => by cases h⟩
  have hqueued : ackedBatch.getDigest ∈ (idealExec 0 10 ackedRun).1.primary.batchDigests := by
    decide +kernel
  have hquorum : (idealExec 0 10 ackedRun).1.pool.hasBatchAckQuorum ackedBatch.digest = true := by
    decide +kernel
  have hyoung : ((idealExec 0 10 ackedRun).1.pool.workers.all fun w =>
      w.ackTracker.pending.values.all fun entry =>
        decide (9 - w.ackTracker.timeout ≤ entry.createdAt)) = true := by decide +kernel
  have hkeeps : (idealExec 0 10 ackedRun).1.KeepsAcks (.ackCleanupTick, idealEnv 9) := by
    refine ⟨fun ref _ w hw entry hget => ?_, fun h => by cases h⟩
    exact AckTracker.young_of_values (List.all_eq_true.mp hyoung w hw) hget
  obtain ⟨htracked, hlasts⟩ := Looseberry.queued_acks_last hrun
  generalize (idealExec 0 10 ackedRun).1 = l at hqueued hquorum hkeeps htracked hlasts ⊢
  refine ⟨hqueued, hquorum, htracked ackedBatch.getDigest hqueued, ?_⟩
  have hsame : ∀ e ∈ [(Event.ackCleanupTick, idealEnv 9)],
      ∀ vs, e.1 = .updateValidatorSet vs → vs.quorum = l.validatorSet.quorum := by
    intro e he vs hvs
    cases List.mem_singleton.mp he
    cases hvs
  rcases hlasts ackedBatch.digest (List.mem_map.mpr ⟨_, hqueued, rfl⟩) hquorum
    [(.ackCleanupTick, idealEnv 9)] ⟨hkeeps, trivial⟩ hsame with hlast | ⟨e, he, htakes⟩
  · exact .inl hlast
  · cases List.mem_singleton.mp he
    exact .inr htakes

/-- A node that can have a second worker. -/
def twoWorkerNode : IdealNode :=
  Looseberry.start { idealConfig 0 10 with maxWorkers := 2 } (idealValidators 4 0) .new .new
    .new 0

def secondWorkerBatch : Batch := .new 1 0 0 [longTx] 3

/-- The second worker makes a batch, and two of the other validators acknowledge it. -/
def secondWorkerRun : List Event :=
  [.scaleUp, .addTx longTx, .workerTick 1, .batchAckMessage (idealAck secondWorkerBatch.digest 1),
    .batchAckMessage (idealAck secondWorkerBatch.digest 2)]

/-- The node lost the acknowledgments of a batch that is still in the queue. -/
def Forgets (l l' : IdealNode) (batch : Batch) : Prop :=
  l.pool.hasBatchAckQuorum batch.digest = true ∧
    batch.getDigest ∈ l'.primary.batchDigests ∧
    l'.validatorSet.quorum = l.validatorSet.quorum ∧
    l'.pool.hasBatchAckQuorum batch.digest = false ∧ ¬ l'.pool.Tracks batch.digest

/-- After half a minute, by a flush, or when its worker is stopped, a batch that has its
quorum is forgotten. -/
theorem queued_acks_forgotten :
    (∃ (l : IdealNode) (log : List Output),
      Looseberry.Reach (fun _ => True) (fun _ _ _ => True) l log ∧
      Forgets l (l.step (.ackCleanupTick, idealEnv 31000000000)).1 ackedBatch ∧
      Forgets l (l.step (.flush, idealEnv 9)).1 ackedBatch) ∧
    ∃ (l : IdealNode) (log : List Output),
      Looseberry.Reach (fun _ => True) (fun _ _ _ => True) l log ∧
      Forgets l (l.step (.scaleDown, idealEnv 9)).1 secondWorkerBatch := by
  have hforgets : ∀ {l l' : IdealNode} {batch : Batch},
      l.pool.hasBatchAckQuorum batch.digest = true ∧
        batch.getDigest ∈ l'.primary.batchDigests ∧
        l'.validatorSet.quorum = l.validatorSet.quorum ∧
        l'.pool.hasBatchAckQuorum batch.digest = false ∧
        (l'.pool.workers.all fun w => !w.ackTracker.pending.has batch.digest) = true →
      Forgets l l' batch := by
    intro l l' batch ⟨hquorum, hqueued, hset, hlost, hnone⟩
    refine ⟨hquorum, hqueued, hset, hlost, fun ⟨w, hw, hhas⟩ => ?_⟩
    have hnot := List.all_eq_true.mp hnone w hw
    rw [hhas] at hnot
    cases hnot
  refine ⟨⟨_, _, reach_idealExec 0 10 ackedRun trivial (.of_forall (fun _ _ _ => trivial) _ _ _),
    hforgets (by decide +kernel), hforgets (by decide +kernel)⟩, ?_⟩
  have hreach : Looseberry.Reach (fun _ => True) (fun _ _ _ => True)
      (Run.exec Looseberry.step twoWorkerNode [] (idealRun secondWorkerRun)).1
      (Run.exec Looseberry.step twoWorkerNode [] (idealRun secondWorkerRun)).2 :=
    Run.Reach.of_exec ⟨⟨_, _, _, _, _, _, rfl⟩, trivial⟩
      (.of_forall (fun _ _ _ => trivial) _ _ _)
  exact ⟨_, _, hreach, hforgets (by decide +kernel)⟩

end

end DagMempool
