import DagMempool.Node.Config
import DagMempool.Proofs.AckGate
import DagMempool.Proofs.BatchSelection

/-!
# The limits of a batch

The limit on the number of transactions in a batch comes from the user's configuration to
the loop that takes transactions off the heap. The limit on bytes does not: the worker's
configuration is made without it, and a worker without a limit on bytes has none. So a batch
is as many of the pending transactions as may be in one, and within the configured bytes
exactly if those happen to be. Which ones those are is settled by the order in which the heap
gives them up: no worker of a node ever has one that is out of order.
-/

namespace DagMempool

theorem WorkerConfig.selected_of_unlimited {cfg : WorkerConfig} (h : ¬ 0 < cfg.batchBytes)
    (l : List PendingEntry) : cfg.selected l = l.take cfg.batchSize :=
  if_neg h

/-- The transactions that a batch of a given number would be made of. -/
def Worker.nextTxs (w : Worker) (count : Nat) : List Transaction :=
  (w.ranked.take count).map (·.tx)

section

variable [Crypto] {BS TI : Type} [BatchStore BS] [TxIndex TI]
variable {batchStore : BS} {txIndex : TI} {batch : Batch}

theorem Worker.stop_fst {w : Worker} {now : Int}
    (h : (w.stop batchStore txIndex now).1 = some batch) :
    ({ w with running := false }.tryCreateBatch batchStore txIndex now).1 = some batch := by
  unfold stop at h
  split at h
  · cases h
  · exact h

theorem Worker.tryCreateBatch_unlimited {w : Worker} (hfree : ¬ 0 < w.cfg.batchBytes) {now : Int}
    (h : (w.tryCreateBatch batchStore txIndex now).1 = some batch) :
    batch.transactions = w.nextTxs w.cfg.batchSize ∧
      batch.transactions.length = min w.cfg.batchSize w.pending.size ∧ 0 < w.pending.size := by
  have hpos : 0 < w.pending.size := by
    rw [tryCreateBatch] at h
    split at h
    · cases h
    · next hsize => omega
  have htxs := (tryCreateBatch_selected (fun hlimited => absurd hlimited hfree) h).1
  rw [WorkerConfig.selected_of_unlimited hfree] at htxs
  refine ⟨htxs, ?_, hpos⟩
  rw [htxs, List.length_map, List.length_take, length_ranked]

variable (BS TI) in
/-- What the worker, running or stopping, makes a batch of, over some stores. -/
def Worker.Creates (w : Worker) (batch : Batch) : Prop :=
  ∃ running, ∃ (batchStore : BS) (txIndex : TI) (now : Int),
    ({ w with running }.tryCreateBatch batchStore txIndex now).1 = some batch

theorem Pool.mem_stopWorkers {now : Int} {ws : List Worker}
    (h : batch ∈ (stopWorkers batchStore txIndex now ws).1) : ∃ w ∈ ws, w.Creates BS TI batch := by
  induction ws generalizing batchStore txIndex with
  | nil => exact absurd h (by simp [stopWorkers])
  | cons w ws ih =>
    rcases List.mem_append.mp h with hfirst | hrest
    · exact ⟨w, List.mem_cons_self, false, batchStore, txIndex, now,
        Worker.stop_fst (Option.mem_toList.mp hfirst)⟩
    · obtain ⟨w', hw', hmade⟩ := ih hrest
      exact ⟨w', List.mem_cons_of_mem _ hw', hmade⟩

end

namespace Looseberry

variable [Crypto] {BS CS TI : Type} [BatchStore BS] [TxIndex TI]

/-- The batches that the workers create in one event. -/
def createdIn (l : Looseberry BS CS TI) (ev : Event × Env) : List Batch :=
  match ev.1 with
  | .workerTick idx => (l.pool.tick idx l.batchStore l.txIndex ev.2.now).1
  | .scaleDown => (l.pool.scaleDown l.batchStore l.txIndex ev.2.now).1
  | .flush => (l.pool.stop l.batchStore l.txIndex ev.2.now).1
  | _ => []

variable {l : Looseberry BS CS TI}

theorem mem_createdIn {ev : Event × Env} {batch : Batch} (h : batch ∈ l.createdIn ev) :
    ∃ w ∈ l.pool.workers, w.Creates BS TI batch := by
  unfold createdIn at h
  split at h
  · next idx =>
      unfold Pool.tick at h
      split at h
      · cases h
      · next w hw =>
          exact ⟨w, List.mem_of_getElem? hw, w.running, _, _, _, Option.mem_toList.mp h⟩
  · rw [Pool.scaleDown_fst] at h
    cases h
  · unfold Pool.stop at h
    split at h
    · cases h
    · exact Pool.mem_stopWorkers h
  · cases h

/-- Every worker is configured as the pool is: with the number of transactions in a batch
from the configuration, and without a limit on bytes. What it has pending is a heap. -/
def Configured (l : Looseberry BS CS TI) (batchSize : Nat) : Prop :=
  ∃ me q, ∃ c : PoolConfig, c.worker.batchSize = batchSize ∧ c.worker.batchBytes = 0 ∧
    l.pool.Hired me q c fun w => w.cfg = c.worker ∧ w.Heaped

theorem hiringRule_cfg (me : UInt16) (q : Nat) (cfg : WorkerConfig) :
    Pool.HiringRule me q cfg fun w => w.cfg = cfg ∧ w.Heaped where
  joins _ _ := ⟨rfl, fun k _ hk => absurd hk (Nat.not_lt_zero k)⟩
  requeued hw hrequeued := by
    obtain ⟨⟨_, _, _, _, rfl⟩, hheaped, -⟩ := hrequeued
    exact ⟨hw.1, hheaped hw.2⟩
  creates _ _ hw _ := hw
  timesOut _ hw := hw

omit [BatchStore BS] [TxIndex TI] in
theorem started_configured (h : l.Started) : l.Configured l.cfg.batchSize := by
  obtain ⟨cfg, vs, batchStore, certStore, txIndex, now, rfl⟩ := h
  exact ⟨_, _, _, rfl, rfl, (Pool.Hired.new _ _).start (hiringRule_cfg _ _ _)⟩

variable [SliceSort] [CertificateStore CS]

theorem step_configured {batchSize : Nat} (h : l.Configured batchSize) (ev : Event × Env) :
    (l.step ev).1.Configured batchSize := by
  obtain ⟨me, q, c, hsize, hbytes, hhired⟩ := h
  rcases validators_cases ev with ⟨vs, env, rfl⟩ | hvs
  · exact ⟨me, vs.quorum, c, hsize, hbytes, hhired.updateQuorum fun w hw => hw⟩
  · exact ⟨me, q, c, hsize, hbytes, step_hired (hiringRule_cfg _ _ _) hhired ev hvs
      fun _ _ _ _ hw => hw⟩

/-- In every run, a batch that a worker creates has at least one and at most `BatchSize`
transactions, and is a single one or within `MaxBatchBytes` exactly if the first `BatchSize`
of those pending are, by priority and then arrival. -/
theorem batch_limits_iff {R : Type} [LE R] [DecidableLE R] (opts : Options R) {cfg : Config}
    (hnew : opts.new = .ok cfg) {l : Looseberry BS CS TI} {log : List Output}
    (hreach : Reach (fun l => l.cfg = cfg) (fun _ _ _ => True) l log) :
    (∀ ev, ∀ batch ∈ l.createdIn ev, ∃ w ∈ l.pool.workers, w.Creates BS TI batch) ∧
    ∀ w ∈ l.pool.workers, w.ranked.Perm w.pending.toList ∧
      w.ranked.Pairwise PendingEntry.InOrder ∧ ∀ batch, w.Creates BS TI batch →
      1 ≤ batch.transactions.length ∧
      (batch.transactions.length : Int) ≤ opts.worker.batchSize ∧
      ((batch.transactions.length = 1 ∨
          (Prefix.total Transaction.size batch.transactions : Int) ≤
            opts.worker.maxBatchBytes.toInt) ↔
        ((w.nextTxs opts.worker.batchSize.toNat).length = 1 ∨
          (Prefix.total Transaction.size (w.nextTxs opts.worker.batchSize.toNat) : Int) ≤
            opts.worker.maxBatchBytes.toInt)) := by
  obtain ⟨hvalid, rfl⟩ := Options.new_eq_ok.mp hnew
  have hpos := (WorkerOptions.validate_eq_ok.mp (Options.validate_eq_ok.mp hvalid).1).2.2.1
  obtain ⟨me, q, c, hsize, hbytes, hhired⟩ : l.Configured opts.worker.batchSize.toNat := by
    refine Run.Reach.invariant
      (I := fun (l : Looseberry BS CS TI) _ => l.Configured opts.worker.batchSize.toNat) ?_ ?_
      hreach
    · rintro l ⟨hstarted, hcfg⟩
      have hconfigured := started_configured hstarted
      rw [hcfg] at hconfigured
      exact hconfigured
    · exact fun l log ev h _ => step_configured h ev
  refine ⟨fun ev batch hbatch => mem_createdIn hbatch, fun w hw => ?_⟩
  obtain ⟨hcfg, hheaped⟩ := hhired.workers w hw
  refine ⟨w.ranked_perm, hheaped.ranked_inOrder, fun batch hcreates => ?_⟩
  obtain ⟨running, batchStore, txIndex, now, hmade⟩ := hcreates
  have hfree : ¬ 0 < w.cfg.batchBytes := by
    rw [hcfg, hbytes]
    decide
  obtain ⟨htxs, hlength, hpending⟩ :=
    Worker.tryCreateBatch_unlimited (w := { w with running }) hfree hmade
  have hcount : w.cfg.batchSize = opts.worker.batchSize.toNat := by rw [hcfg, hsize]
  have htxs : batch.transactions = w.nextTxs opts.worker.batchSize.toNat := by
    rw [htxs, ← hcount]
    rfl
  have hlength : batch.transactions.length =
      min opts.worker.batchSize.toNat w.pending.size := by
    rw [hlength, ← hcount]
  have hpending : 0 < w.pending.size := hpending
  refine ⟨by omega, by omega, ?_⟩
  rw [htxs]

end Looseberry

section

open IdealScheme

/-- Two transactions in a batch, of one byte together. -/
def twoInABatch (maxBatchBytes : Int64) : Options Nat :=
  { validatorIndex := 0, signer := idealSigner 0, txValidator := none
    worker :=
      { minWorkers := 1, maxWorkers := 1, batchSize := 2, batchTimeout := 1, maxBatchBytes
        maxPendingTxs := 10, maxPendingBytes := 10, scaleUpThreshold := 8
        scaleDownThreshold := 2 }
    primary := .default, sync := .default, gc := .default, flowControl := .default }

/-- A node with this configuration to which two transactions were submitted. -/
def submitted (maxBatchBytes : Int64) : IdealNode × List Output :=
  Run.exec Looseberry.step
    (Looseberry.start (twoInABatch maxBatchBytes).toConfig (idealValidators 4 0) .new .new .new 0)
    [] (idealRun [.addTx [0], .addTx [1]])

theorem reach_submitted (maxBatchBytes : Int64) :
    Looseberry.Reach (fun l => l.cfg = (twoInABatch maxBatchBytes).toConfig) (fun _ _ _ => True)
      (submitted maxBatchBytes).1 (submitted maxBatchBytes).2 :=
  Run.Reach.of_exec ⟨⟨_, _, _, _, _, _, rfl⟩, rfl⟩
    (Run.AllOk.of_forall (fun _ _ _ => trivial) _ _ _)

/-- A limit of one byte is accepted, and a batch of two one-byte transactions is created. -/
theorem batch_exceeds_max_batch_bytes :
    ∃ (opts : Options Nat) (l : IdealNode) (log : List Output) (batch : Batch),
      opts.new = .ok opts.toConfig ∧
      Looseberry.Reach (fun l => l.cfg = opts.toConfig) (fun _ _ _ => True) l log ∧
      batch ∈ l.createdIn (.workerTick 0, idealEnv 3) ∧ batch.transactions.length = 2 ∧
      opts.worker.maxBatchBytes.toInt < Prefix.total Transaction.size batch.transactions :=
  ⟨twoInABatch 1, _, _, .new 0 0 0 [[0], [1]] 3, rfl, reach_submitted 1, by decide +kernel, rfl,
    by decide⟩

theorem batch_limits_iff_two :
    ∃ (opts : Options Nat) (l : IdealNode) (batch : Batch),
      batch ∈ l.createdIn (.workerTick 0, idealEnv 3) ∧
      (batch.transactions.length : Int) ≤ opts.worker.batchSize ∧
      batch.transactions.length = 2 ∧
      (Prefix.total Transaction.size batch.transactions : Int) ≤
        opts.worker.maxBatchBytes.toInt := by
  have hbatch : Batch.new 0 0 0 [[0], [1]] 3 ∈
      (submitted 2).1.createdIn (.workerTick 0, idealEnv 3) := by decide +kernel
  obtain ⟨hcreated, hlimits⟩ :=
    Looseberry.batch_limits_iff (twoInABatch 2) rfl (reach_submitted 2)
  obtain ⟨w, hw, hcreates⟩ := hcreated _ _ hbatch
  exact ⟨twoInABatch 2, _, _, hbatch, ((hlimits w hw).2.2 _ hcreates).2.1, rfl, by decide⟩

end

end DagMempool
