import DagMempool.Proofs.BatchSelection
import DagMempool.Proofs.TxConservation

/-!
# What is batched when workers stop

A worker that stops makes one last batch, however much it has pending. So nothing it has
admitted is left behind exactly if what is pending then fits into one batch; the pool, when
it stops, discards its workers with whatever is left in them.
-/

namespace DagMempool

open scoped List

theorem WorkerConfig.selected_eq_self_iff {cfg : WorkerConfig} {l : List PendingEntry} :
    cfg.selected l = l ↔ l.length ≤ cfg.batchSize ∧ (0 < cfg.batchBytes →
      l.length ≤ 1 ∨ (Prefix.total PendingEntry.size l : Int) ≤ cfg.batchBytes.toInt) := by
  have hsize : cfg.selected l = l → l.length ≤ cfg.batchSize := by
    intro h
    have hle : (cfg.selected l).length ≤ (l.take cfg.batchSize).length := by
      unfold selected
      split
      · exact (Prefix.longest_prefix _ _ _).length_le
      · exact Nat.le_refl _
    rw [h, List.length_take] at hle
    omega
  by_cases hfits : l.length ≤ cfg.batchSize
  · rw [selected, List.take_of_length_le hfits]
    split
    · next hlimited => simp [Prefix.longest_eq_self_iff, hfits, hlimited]
    · next hfree => simp [hfits, hfree]
  · exact ⟨fun h => absurd (hsize h) hfits, fun h => absurd h.1 hfits⟩

namespace Worker

/-- What is pending fits into one batch. -/
def FitsBatch (w : Worker) : Prop :=
  w.pending.size ≤ w.cfg.batchSize ∧ (0 < w.cfg.batchBytes →
    w.pending.size ≤ 1 ∨ (w.pendingTotal : Int) ≤ w.cfg.batchBytes.toInt)
deriving Decidable

variable {w : Worker}

theorem fitsBatch_iff : w.FitsBatch ↔ w.cfg.selected w.ranked = w.ranked := by
  rw [WorkerConfig.selected_eq_self_iff, length_ranked, total_ranked]
  rfl

theorem fitsBatch_iff_length :
    w.FitsBatch ↔ w.pending.size ≤ (w.cfg.selected w.ranked).length := by
  rw [fitsBatch_iff, ← length_ranked]
  constructor
  · intro h
    rw [h]
  · exact (w.cfg.selected_prefix w.ranked).eq_of_length_le

theorem map_ranked_perm (w : Worker) : w.ranked.map (·.tx) ~ w.pendingTxs :=
  w.ranked_perm.map _

variable [Crypto] {BS TI : Type} [BatchStore BS] [TxIndex TI] [AcceptingBatchStore BS]

theorem stop_selected (hrunning : w.running = true)
    (hbytes : 0 < w.cfg.batchBytes → w.pendingTotal < 2 ^ 63) {batchStore : BS}
    (hstore : AcceptingBatchStore.accepts batchStore) (txIndex : TI) (now : Int) :
    (w.stop batchStore txIndex now).1.toList.flatMap (·.transactions) =
        (w.cfg.selected w.ranked).map (·.tx) ∧
      AcceptingBatchStore.accepts (w.stop batchStore txIndex now).2.2.1 := by
  rw [stop, hrunning]
  simp only [Bool.not_true, Bool.false_eq_true, if_false]
  by_cases hsize : w.pending.size = 0
  · have hranked : w.ranked = [] := by
      rw [← List.length_eq_zero_iff, length_ranked]
      exact hsize
    have hnothing : WorkerConfig.selected w.cfg [] = [] := by
      unfold WorkerConfig.selected
      split <;> simp [Prefix.longest]
    rw [tryCreateBatch, if_pos hsize, hranked, hnothing]
    exact ⟨rfl, hstore⟩
  · obtain ⟨hsome, haccepts⟩ :=
      tryCreateBatch_isSome (w := { w with running := false }) hsize hstore txIndex now
    obtain ⟨batch, hbatch⟩ := Option.isSome_iff_exists.mp hsome
    obtain ⟨htxs, -⟩ := tryCreateBatch_selected (w := { w with running := false }) hbytes hbatch
    rw [hbatch, Option.toList_some, List.flatMap_singleton]
    exact ⟨htxs, haccepts⟩

end Worker

namespace WorkerSystem

variable [Crypto] {BS TI : Type} [BatchStore BS] [TxIndex TI] [AcceptingBatchStore BS]
  [AcceptingTxIndex TI] {given : Batch → Prop} {s : WorkerSystem BS TI} {log : List WorkerOutput}

theorem Conserved.flushed_iff (h : Conserved given s log)
    (hstore : AcceptingBatchStore.accepts s.batchStore) (now : Int) :
    (∀ tx ∈ admittedTxs log, tx ∈ batchedTxs (log ++ (s.stop now).2)) ↔
      s.worker.FitsBatch := by
  have hbatched : batchedTxs (log ++ (s.stop now).2) =
      batchedTxs log ++ (s.worker.cfg.selected s.worker.ranked).map (·.tx) := by
    obtain ⟨htxs, -⟩ := Worker.stop_selected h.running (fun _ => h.sound.within.lt) hstore
      s.txIndex now
    rw [← htxs, batchedTxs, createdBatches_append, List.flatMap_append, stop,
      createdBatches_created]
    rfl
  rw [hbatched]
  constructor
  · -- As many are batched as were admitted, for those are distinct.
    intro hall
    have hnodup : (admittedTxs log).Nodup := .of_map _ h.once
    have hle := (hnodup.subperm hall).length_le
    have hlength := h.conserved.length_eq
    rw [List.length_append, Worker.length_pendingTxs] at hlength
    rw [List.length_append, List.length_map] at hle
    rw [Worker.fitsBatch_iff_length]
    omega
  · intro hfits tx htx
    rw [Worker.fitsBatch_iff.mp hfits, List.mem_append]
    rcases List.mem_append.mp (h.conserved.mem_iff.mpr htx) with hpending | hold
    · exact .inr (s.worker.map_ranked_perm.mem_iff.mpr hpending)
    · exact .inl hold

end WorkerSystem

/-! ## The pool

A pool that stops goes through its workers. Each first finishes the batch it was making, and then
makes a last one. -/

def BatchCreation.takenTxs : Option BatchCreation → List Transaction
  | some (.popped txs) => txs
  | _ => []

section

theorem Pool.running_addWorkers (p : Pool) (n : Nat) : (p.addWorkers n).running = p.running := by
  induction n generalizing p with
  | zero => rfl
  | succ n ih => exact ih _

variable [Crypto] {BS TI : Type} [TxIndex TI]

theorem Pool.running_addTx (p : Pool) (txIndex : TI) (tx : Transaction) :
    (p.addTx txIndex tx).2.running = p.running := by
  rcases p.addTx_cases txIndex tx with he | ⟨w, -, he⟩
  · rw [he]
  · rw [he]

theorem Pool.running_addTxs (p : Pool) (txIndex : TI) (txs : List Transaction) :
    (p.addTxs txIndex txs).running = p.running := by
  induction txs generalizing p with
  | nil => rfl
  | cons tx txs ih => exact (ih _).trans (p.running_addTx txIndex tx)

end

namespace PoolSystem

/-- What a pool has in its workers and has not passed on. -/
def heldTxs (s : PoolSystem BS TI) : List Transaction :=
  s.creating.flatMap BatchCreation.takenTxs ++ s.pool.workers.flatMap Worker.pendingTxs

/-- All that the workers hold is passed on exactly if each of them can pass it on. -/
theorem flatMap_selected_perm_iff (ws : List (Worker × Option BatchCreation)) :
    (ws.flatMap fun p => BatchCreation.takenTxs p.2 ++ (p.1.cfg.selected p.1.ranked).map (·.tx)) ~
        (ws.flatMap fun p => BatchCreation.takenTxs p.2 ++ p.1.pendingTxs) ↔
      ∀ p ∈ ws, p.1.FitsBatch := by
  constructor
  · intro hperm p hp
    by_contra hfits
    have hlength := hperm.length_eq
    rw [List.length_flatMap, List.length_flatMap] at hlength
    refine absurd hlength (Nat.ne_of_lt (List.sum_lt_sum _ _ (fun q _ => ?_) ⟨p, hp, ?_⟩))
    · have hle := (q.1.cfg.selected_prefix q.1.ranked).length_le
      rw [Worker.length_ranked] at hle
      simp only [List.length_append, List.length_map, Worker.length_pendingTxs]
      omega
    · rw [Worker.fitsBatch_iff_length] at hfits
      simp only [List.length_append, List.length_map, Worker.length_pendingTxs]
      omega
  · intro hfits
    refine List.Perm.flatMap_left _ fun p hp => ?_
    rw [Worker.fitsBatch_iff.mp (hfits p hp)]
    exact p.1.map_ranked_perm.append_left _

variable [Crypto] {BS TI : Type} [BatchStore BS] [TxIndex TI] {s : PoolSystem BS TI}

theorem running_step (s : PoolSystem BS TI) (e : PoolEvent × Int) :
    (s.step e).1.pool.running = s.pool.running := by
  obtain ⟨e, now⟩ := e
  cases e with
  | addTx tx => exact s.pool.running_addTx s.txIndex tx
  | scaleUp =>
    dsimp only [step]
    unfold Pool.scaleUp
    split
    · rfl
    · split
      · rfl
      · rfl
  | scaleDown =>
    rcases s.scaleDown_cases now with he | ⟨w, -, he⟩
    · rw [step, he]
    · rw [step, he]
      exact Pool.running_addTxs _ _ _
  | pop idx =>
    dsimp only [step]
    split
    · rfl
    · rfl
  | save idx =>
    dsimp only [step]
    split
    · rfl
    · rfl
  | index idx =>
    dsimp only [step]
    split
    · rfl
    · rfl
  | setTxValidator | setRound | updateQuorum | recordAck | removeTimedOutAcks => rfl

omit [BatchStore BS] [TxIndex TI] [Crypto] in
theorem Started.running (h : s.Started) : s.pool.running = true := by
  obtain ⟨cfg, validatorID, quorum, txValidator, hpool, -⟩ := h
  rw [hpool, Pool.start]
  exact Pool.running_addWorkers _ _

omit [Crypto] [BatchStore BS] [TxIndex TI] in
theorem heldTxs_perm (hlengths : s.creating.length = s.pool.workers.length) :
    ((s.pool.workers.zip s.creating).flatMap fun p =>
      BatchCreation.takenTxs p.2 ++ p.1.pendingTxs) ~ s.heldTxs := by
  have hfst : (s.pool.workers.zip s.creating).map Prod.fst = s.pool.workers :=
    List.map_fst_zip (by omega)
  have hsnd : (s.pool.workers.zip s.creating).map Prod.snd = s.creating :=
    List.map_snd_zip (by omega)
  have hheld : s.heldTxs =
      ((s.pool.workers.zip s.creating).map Prod.snd).flatMap BatchCreation.takenTxs ++
        ((s.pool.workers.zip s.creating).map Prod.fst).flatMap Worker.pendingTxs := by
    rw [hfst, hsnd]
    rfl
  rw [hheld, List.flatMap_map, List.flatMap_map]
  exact (List.flatMap_append_perm _ _ _).symm

variable [AcceptingBatchStore BS]

theorem finishBatch_accepted (w : Worker) {batchStore : BS}
    (hstore : AcceptingBatchStore.accepts batchStore) (txIndex : TI) (now : Int)
    (creation : Option BatchCreation) :
    (w.finishBatch batchStore txIndex now creation).1.toList.flatMap (·.transactions) =
        BatchCreation.takenTxs creation ∧
      AcceptingBatchStore.accepts (w.finishBatch batchStore txIndex now creation).2.2.1 ∧
      ∃ ackTracker,
        (w.finishBatch batchStore txIndex now creation).2.1 = { w with ackTracker } := by
  match creation with
  | none => exact ⟨rfl, hstore, w.ackTracker, rfl⟩
  | some (.saved batch) => exact ⟨rfl, hstore, _, rfl⟩
  | some (.popped txs) =>
    rw [Worker.finishBatch, Worker.saveTxs]
    rw [AcceptingBatchStore.save_ok _ hstore]
    rw [Option.toList_some, List.flatMap_singleton]
    exact ⟨rfl, AcceptingBatchStore.accepts_save _ hstore, _, rfl⟩

theorem stopWorkers_txs (now : Int) {ws : List (Worker × Option BatchCreation)}
    (hws : ∀ p ∈ ws, p.1.running = true ∧ (0 < p.1.cfg.batchBytes → p.1.pendingTotal < 2 ^ 63))
    {batchStore : BS} (hstore : AcceptingBatchStore.accepts batchStore) (txIndex : TI) :
    (stopWorkers batchStore txIndex now ws).1.flatMap (·.transactions) =
      ws.flatMap fun p =>
        BatchCreation.takenTxs p.2 ++ (p.1.cfg.selected p.1.ranked).map (·.tx) := by
  induction ws generalizing batchStore txIndex with
  | nil => rfl
  | cons p ws ih =>
    obtain ⟨w, creation⟩ := p
    obtain ⟨hw, hws⟩ := List.forall_mem_cons.mp hws
    obtain ⟨htaken, hstore, ackTracker, hworker⟩ :=
      finishBatch_accepted w hstore txIndex now creation
    rw [stopWorkers, List.flatMap_cons]
    generalize w.finishBatch batchStore txIndex now creation = finished at *
    obtain ⟨hlast, hstore⟩ := Worker.stop_selected (w := finished.2.1)
      (by rw [hworker]; exact hw.1)
      (by rw [hworker]; exact hw.2) hstore finished.2.2.2 now
    rw [hworker] at hlast
    rw [List.flatMap_append, List.flatMap_append, htaken, ih hws hstore, hworker]
    exact congrArg (fun txs => _ ++ txs ++ _) hlast

theorem Sound.flushed_iff (hs : s.Sound) (hrunning : s.pool.running = true)
    (hbytes : ∀ w ∈ s.pool.workers, w.pendingTotal < 2 ^ 63)
    (hstore : AcceptingBatchStore.accepts s.batchStore) (now : Int) :
    (s.stop now).2.flatMap (·.transactions) ~ s.heldTxs ↔
      ∀ w ∈ s.pool.workers, w.FitsBatch := by
  have hfst : (s.pool.workers.zip s.creating).map Prod.fst = s.pool.workers :=
    List.map_fst_zip (by have := hs.lengths; omega)
  have hws : ∀ p ∈ s.pool.workers.zip s.creating, p.1 ∈ s.pool.workers := by
    intro p hp
    rw [← hfst]
    exact List.mem_map_of_mem hp
  have htxs := stopWorkers_txs now (fun p hp => ⟨hs.running p.1 (hws p hp), fun _ =>
    hbytes p.1 (hws p hp)⟩) hstore s.txIndex
  rw [stop, hrunning]
  simp only [Bool.not_true, Bool.false_eq_true, if_false]
  rw [htxs, ← (heldTxs_perm hs.lengths).congr_right, flatMap_selected_perm_iff]
  constructor
  · intro hfits w hw
    rw [← hfst] at hw
    obtain ⟨p, hp, rfl⟩ := List.mem_map.mp hw
    exact hfits p hp
  · intro hfits p hp
    exact hfits p.1 (hws p hp)

end PoolSystem

/-- Where the store takes every batch: a worker that stops has passed on all it ever admitted
exactly if what was pending fits into one batch, and a pool that stops passes on all it holds
exactly if that is so of every worker. -/
theorem stop_flushes_iff [Crypto] (BS TI : Type) [BatchStore BS] [TxIndex TI]
    [AcceptingBatchStore BS] :
    (∀ [AcceptingTxIndex TI] (s : WorkerSystem BS TI) log now,
      Run.Reach (WorkerSystem.Started (· ∈ createdBatches log)) WorkerSystem.step
        WorkerSystem.Addressable s log →
      AcceptingBatchStore.accepts s.batchStore →
      ((∀ tx ∈ admittedTxs log, tx ∈ WorkerSystem.batchedTxs (log ++ (s.stop now).2)) ↔
        s.worker.FitsBatch)) ∧
    ∀ (s : PoolSystem BS TI) log now,
      Run.Reach PoolSystem.Started PoolSystem.step (fun _ _ _ => True) s log →
      AcceptingBatchStore.accepts s.batchStore →
      (∀ w ∈ s.pool.workers, w.pendingTotal < 2 ^ 63) →
      (s.stop now).1.pool.workers = [] ∧
      ((s.stop now).2.flatMap (·.transactions) ~ s.heldTxs ↔
        ∀ w ∈ s.pool.workers, w.FitsBatch) := by
  refine ⟨fun s log now hreach hstore => ?_, fun s log now hreach hstore hbytes => ?_⟩
  · exact (WorkerSystem.conserved_of_reach hreach).flushed_iff hstore now
  · have hs : s.Sound ∧ s.pool.running = true :=
      hreach.invariant (I := fun s _ => s.Sound ∧ s.pool.running = true)
        (fun _ h => ⟨h.sound, h.running⟩)
        fun s _ e hs _ => ⟨hs.1.step e, (s.running_step e).trans hs.2⟩
    refine ⟨?_, hs.1.flushed_iff hs.2 hbytes hstore now⟩
    rw [PoolSystem.stop, hs.2]
    rfl

section

attribute [local instance] idealCrypto

def tightPool : IdealPool :=
  { pool := (Pool.new { idealPoolConfig 2 with worker := tightConfig } 0 3 none).start
    batchStore := .new, txIndex := .new, creating := [none] }

/-- The worker and the pool, after some transactions were added. -/
def addedTo (txs : List Transaction) :
    WorkerSystem MemoryBatchStore MemoryTxIndex × List WorkerOutput :=
  Run.exec WorkerSystem.step (tightWorker false) [] (txs.map (.addTx none))

def addedToPool (txs : List Transaction) : IdealPool × List Batch :=
  Run.exec PoolSystem.step tightPool [] (txs.map fun tx => (.addTx tx, 1))

theorem reach_tightWorker (txs : List Transaction)
    (hok : Run.AllOk WorkerSystem.step WorkerSystem.Addressable (tightWorker false) []
      (txs.map (.addTx none))) :
    Run.Reach (WorkerSystem.Started (· ∈ createdBatches (addedTo txs).2)) WorkerSystem.step
      WorkerSystem.Addressable (addedTo txs).1 (addedTo txs).2 :=
  Run.Reach.of_exec ⟨⟨0, 0, tightConfig, 3, rfl⟩, rfl⟩ hok

theorem reach_tightPool (txs : List Transaction) :
    Run.Reach PoolSystem.Started PoolSystem.step (fun _ _ _ => True)
      (addedToPool txs).1 (addedToPool txs).2 :=
  Run.Reach.of_exec ⟨_, _, _, _, rfl, rfl⟩ (Run.AllOk.of_forall (fun _ _ _ => trivial) _ _ _)

/-- Two transactions, of which the last batch has room for one, and the other is gone: from
the worker, and from the pool with its workers. -/
theorem pending_lost_on_stop :
    (∃ (s : WorkerSystem MemoryBatchStore MemoryTxIndex) (log : List WorkerOutput),
      Run.Reach (WorkerSystem.Started (· ∈ createdBatches log)) WorkerSystem.step
        WorkerSystem.Addressable s log ∧
      AcceptingBatchStore.accepts s.batchStore ∧ [1] ∈ admittedTxs log ∧
      [1] ∉ WorkerSystem.batchedTxs (log ++ (s.stop 3).2)) ∧
    ∃ (s : IdealPool) (log : List Batch),
      Run.Reach PoolSystem.Started PoolSystem.step (fun _ _ _ => True) s log ∧
      AcceptingBatchStore.accepts s.batchStore ∧ [1] ∈ s.heldTxs ∧
      [1] ∉ (s.stop 3).2.flatMap (·.transactions) ∧ (s.stop 3).1.pool.workers = [] := by
  exact ⟨⟨_, _, reach_tightWorker [[0], [1]] (by decide), rfl, by decide, by decide⟩,
    _, _, reach_tightPool [[0], [1]], rfl, by decide, by decide, by decide⟩

theorem stop_flushes_iff_single :
    (∃ (s : WorkerSystem MemoryBatchStore MemoryTxIndex) (log : List WorkerOutput),
      admittedTxs log = [[0]] ∧
      ∀ tx ∈ admittedTxs log, tx ∈ WorkerSystem.batchedTxs (log ++ (s.stop 2).2)) ∧
    ∃ s : IdealPool, s.heldTxs = [[0]] ∧
      (s.stop 2).2.flatMap (·.transactions) ~ s.heldTxs := by
  obtain ⟨hworker, hpool⟩ := stop_flushes_iff MemoryBatchStore MemoryTxIndex
  exact ⟨⟨_, _, by decide, (hworker _ _ 2 (reach_tightWorker [[0]] (by decide)) rfl).mpr
      (by decide)⟩,
    _, by decide, (hpool _ _ 2 (reach_tightPool [[0]]) rfl (by decide)).2.mpr (by decide)⟩

end

end DagMempool
