import DagMempool.Proofs.PendingPool
import DagMempool.Proofs.PoolDedup
import DagMempool.Worker.Calls

/-!
# A worker conserves its transactions

What `AddTx` lets in is pending or in a batch that was passed on, and stays so when the
batch store fails: the transactions of a batch that could not be saved go back one by one,
each through the same checks as a new one, and pass them, because they were all pending a
moment ago, within the limits.
-/

namespace DagMempool

open scoped List

namespace Worker

theorem length_pendingTxs (w : Worker) : w.pendingTxs.length = w.pending.size := by
  simp [pendingTxs]

theorem total_pendingTxs (w : Worker) :
    Prefix.total Transaction.size w.pendingTxs = w.pendingTotal := by
  simp only [Prefix.total, pendingTxs, pendingTotal, List.map_map]
  rfl

variable [Crypto] {w : Worker}

theorem pendingTxs_pushPending (w : Worker) (tx : Transaction) (priority : Int64) :
    (w.pushPending tx priority).pendingTxs ~ tx :: w.pendingTxs :=
  (Heap.push_perm w.pending _).map _

theorem beginBatch_txs_perm {txs : List Transaction} (h : w.beginBatch.1 = some txs) :
    txs ++ w.beginBatch.2.pendingTxs ~ w.pendingTxs := by
  unfold beginBatch at h ⊢
  split at h
  · cases h
  · next hsize =>
      rw [if_neg hsize]
      rw [← Option.some.inj h]
      exact popBatch_txs_perm w _ [] 0

/-! ## Giving back what was taken

The transactions given back are admitted one by one. There is room for each, since there was for
all of them when they were pending. -/

/-- There is room for all of these at once. -/
structure RoomFor (w : Worker) (txs : List Transaction) : Prop where
  fresh : (hashes txs ++ w.pendingHashes).Nodup
  count : w.pending.size + txs.length ≤ w.cfg.maxPendingTxs
  bytes : txs ≠ [] →
    ((w.pendingTotal + Prefix.total Transaction.size txs : Nat) : Int) ≤ w.cfg.maxPendingBytes.toInt

variable {tx : Transaction} {txs : List Transaction}

theorem RoomFor.accepts (hw : w.Pooled) (h : w.RoomFor (tx :: txs)) :
    w.pendingSet.has tx.hash = false ∧ w.full tx = false := by
  constructor
  · rw [Bool.eq_false_iff, Ne, hw.queued.has_iff]
    intro hmem
    exact (List.nodup_cons.mp h.fresh).1 (List.mem_append_right _ hmem)
  · have hbytes := h.bytes (by simp)
    have hmax := Int64.toInt_lt w.cfg.maxPendingBytes
    have hcount := h.count
    rw [Prefix.total_cons] at hbytes
    rw [List.length_cons] at hcount
    rw [full_eq_false, hw.measured, ← Int64.ofNat_add, Int64.le_iff_toInt_le,
      Int64.toInt_ofNat_of_lt (by omega)]
    omega

theorem RoomFor.pushPending (h : w.RoomFor (tx :: txs)) (priority : Int64) :
    (w.pushPending tx priority).RoomFor txs where
  fresh := by
    have hperm : hashes txs ++ (w.pushPending tx priority).pendingHashes ~
        hashes (tx :: txs) ++ w.pendingHashes :=
      ((pushPending_perm w tx priority).append_left _).trans List.perm_middle
    exact hperm.nodup_iff.mpr h.fresh
  count := by
    have hcount := h.count
    show (Heap.push PendingEntry.less w.pending _).size + txs.length ≤ w.cfg.maxPendingTxs
    rw [Heap.size_push]
    rw [List.length_cons] at hcount
    omega
  bytes _ := by
    have hbytes := h.bytes (by simp)
    rw [Prefix.total_cons] at hbytes
    rw [pendingTotal_pushPending]
    show _ ≤ w.cfg.maxPendingBytes.toInt
    omega

theorem Pooled.requeueTransactions_all (hw : w.Pooled) (h : w.RoomFor txs) :
    (w.requeueTransactions txs).pendingTxs ~ txs ++ w.pendingTxs := by
  induction txs generalizing w with
  | nil => exact .refl _
  | cons tx txs ih =>
    obtain ⟨hset, hfull⟩ := h.accepts hw
    rw [requeueTransactions, hset, hfull]
    have hrest := ih (hw.pushPending hset hfull 0) (h.pushPending 0)
    exact hrest.trans
      (((pendingTxs_pushPending w tx 0).append_left txs).trans List.perm_middle)

theorem Pooled.roomFor_beginBatch (hw : w.Pooled) (hin : w.Within)
    (h : w.beginBatch.1 = some txs) : w.beginBatch.2.RoomFor txs := by
  have hperm := beginBatch_txs_perm h
  obtain ⟨-, -, hcfg⟩ := w.beginBatch_subperm
  have hlength := hperm.length_eq
  rw [List.length_append, length_pendingTxs, length_pendingTxs] at hlength
  have htotal := Prefix.total_of_perm Transaction.size hperm
  rw [Prefix.total_append, total_pendingTxs, total_pendingTxs] at htotal
  refine ⟨?_, ?_, fun hne => ?_⟩
  · have hhashes := hperm.map Transaction.hash
    rw [List.map_append] at hhashes
    rw [← hashes_pendingTxs]
    exact hhashes.nodup_iff.mpr (by
      show (hashes w.pendingTxs).Nodup
      rw [hashes_pendingTxs]
      exact hw.queued.nodup)
  · have := hw.counted
    rw [hcfg]
    omega
  · rcases hin with hempty | hle
    · have : w.pending.size = 0 := by rw [hempty]; rfl
      have := List.length_pos_iff.mpr hne
      omega
    · rw [hcfg]
      omega

variable {BS TI : Type} [BatchStore BS] [TxIndex TI]

/-- A pool in order, within its limits. -/
structure Sound (w : Worker) : Prop where
  pooled : w.Pooled
  within : w.Within

theorem Sound.beginBatch (h : w.Sound) : w.beginBatch.2.Sound := by
  obtain ⟨hsub, -, hcfg⟩ := w.beginBatch_subperm
  exact ⟨h.pooled.beginBatch, h.within.of_subperm hsub hcfg⟩

theorem Sound.indexBatch (h : w.Sound) (txIndex : TI) (batch : Batch) (now : Int) :
    (w.indexBatch txIndex batch now).1.Sound :=
  ⟨⟨h.pooled.queued.indexBatch txIndex batch now, h.pooled.ordered, h.pooled.counted,
    h.pooled.measured⟩, h.within⟩

theorem Sound.requeueTransactions (h : w.Sound) (hroom : w.RoomFor txs) :
    (w.requeueTransactions txs).Sound := by
  refine ⟨h.pooled.runSection (.requeue txs), h.pooled.within_requeueTransactions h.within ?_⟩
  have hmax := Int64.toInt_lt w.cfg.maxPendingBytes
  cases txs with
  | nil => exact h.within.lt
  | cons tx txs =>
    have := hroom.bytes (by simp)
    omega

/-- The batch, if there is one, and what stays is what was pending, whatever the store
answers. -/
theorem Sound.tryCreateBatch (h : w.Sound) (batchStore : BS) (txIndex : TI) (now : Int) :
    (w.tryCreateBatch batchStore txIndex now).1.toList.flatMap (·.transactions) ++
        (w.tryCreateBatch batchStore txIndex now).2.1.pendingTxs ~ w.pendingTxs ∧
      (w.tryCreateBatch batchStore txIndex now).2.1.Sound := by
  rw [tryCreateBatch_eq]
  cases hbegin : w.beginBatch.1 with
  | none =>
    have hw : w.beginBatch.2 = w := by
      unfold Worker.beginBatch at hbegin ⊢
      split at hbegin
      · next hsize => rw [if_pos hsize]
      · cases hbegin
    rw [hw]
    exact ⟨.refl _, h⟩
  | some txs =>
    have hperm := beginBatch_txs_perm hbegin
    have hroom := h.pooled.roomFor_beginBatch h.within hbegin
    rw [Option.map_some, finishBatch, saveTxs]
    generalize BatchStore.saveBatch batchStore _ = saved
    obtain ⟨answer, batchStore'⟩ := saved
    cases answer with
    | error cause =>
      exact ⟨(h.beginBatch.pooled.requeueTransactions_all hroom).trans hperm,
        h.beginBatch.requeueTransactions hroom⟩
    | ok =>
      refine ⟨?_, h.beginBatch.indexBatch txIndex _ now⟩
      simp only [Option.toList_some, List.flatMap_singleton]
      exact hperm

theorem Pooled.of_pendingTxs_perm {w' : Worker} (h : w.Pooled) (h' : w'.Pooled)
    (hperm : w'.pendingTxs ~ w.pendingTxs) :
    (∀ d, w'.pendingSet.has d = w.pendingSet.has d) ∧ w'.pendingBytes = w.pendingBytes := by
  refine ⟨fun d => ?_, ?_⟩
  · have hmem := (hperm.map Transaction.hash).mem_iff (a := d)
    rw [Bool.eq_iff_iff, h.queued.has_iff, h'.queued.has_iff, ← hashes_pendingTxs,
      ← hashes_pendingTxs]
    exact hmem
  · rw [h.measured, h'.measured, ← total_pendingTxs, ← total_pendingTxs,
      Prefix.total_of_perm _ hperm]

end Worker

namespace WorkerSystem

variable [Crypto] {BS TI : Type} [BatchStore BS] [TxIndex TI]

/-- The calls that a process has the memory for. -/
def Addressable (s : WorkerSystem BS TI) (_ : List WorkerOutput) : WorkerCall → Prop
  | .addTx _ tx => s.worker.pendingTotal + tx.size < 2 ^ 63
  | .tryCreateBatch _ => True

instance (s : WorkerSystem BS TI) (log : List WorkerOutput) : DecidablePred (s.Addressable log)
  | .addTx _ tx => inferInstanceAs (Decidable (s.worker.pendingTotal + tx.size < 2 ^ 63))
  | .tryCreateBatch _ => .isTrue trivial

def batchedTxs (log : List WorkerOutput) : List Transaction :=
  (createdBatches log).flatMap (·.transactions)

variable [AcceptingTxIndex TI]

structure Conserved (given : Batch → Prop) (s : WorkerSystem BS TI) (log : List WorkerOutput) :
    Prop where
  running : s.worker.running = true
  sound : s.worker.Sound
  accepts : AcceptingTxIndex.accepts given s.txIndex
  conserved : s.worker.pendingTxs ++ batchedTxs log ~ admittedTxs log
  once : (hashes (admittedTxs log)).Nodup
  indexed : ∀ b ∈ createdBatches log, ∀ h ∈ b.txHashes, TxIndex.hasTx s.txIndex h = true

variable {given : Batch → Prop} {s : WorkerSystem BS TI} {log : List WorkerOutput}

omit [BatchStore BS] in
theorem Started.conserved (h : Started given s) : Conserved given s [] := by
  obtain ⟨⟨id, validatorID, cfg, quorum, hw⟩, haccepts⟩ := h
  have hpooled := Worker.pooled_new id validatorID cfg quorum
  refine ⟨by rw [hw], ?_, haccepts, by rw [hw]; exact .refl _, List.nodup_nil,
    fun b hb => absurd hb (by simp [createdBatches])⟩
  rw [hw]
  exact ⟨⟨⟨hpooled.queued.nodup, hpooled.queued.has_iff⟩, hpooled.ordered, hpooled.counted,
    hpooled.measured⟩, .inl rfl⟩

omit [BatchStore BS] in
/-- What is batched is known to the index, so that what it does not know is new. -/
theorem Conserved.fresh (h : Conserved given s log) {tx : Transaction}
    (hset : s.worker.pendingSet.has tx.hash = false)
    (hidx : TxIndex.hasTx s.txIndex tx.hash = false) : tx.hash ∉ hashes (admittedTxs log) := by
  have hhashes := (h.conserved.map Transaction.hash).mem_iff (a := tx.hash)
  rw [List.map_append, List.mem_append] at hhashes
  intro hmem
  rcases hhashes.mpr hmem with hpending | hbatched
  · have hin : tx.hash ∈ s.worker.pendingHashes := by
      rw [← Worker.hashes_pendingTxs]
      exact hpending
    rw [(h.sound.pooled.queued.has_iff _).mpr hin] at hset
    cases hset
  · obtain ⟨tx', htx', heq⟩ := List.mem_map.mp hbatched
    obtain ⟨b, hb, hin⟩ := List.mem_flatMap.mp htx'
    have hknown := h.indexed b hb tx'.hash (List.mem_map_of_mem hin)
    rw [heq, hidx] at hknown
    cases hknown

theorem Conserved.addTx (h : Conserved given s log) (txValidator : Option TxValidator)
    {tx : Transaction} (hmem : s.worker.pendingTotal + tx.size < 2 ^ 63) :
    Conserved given (s.step (.addTx txValidator tx)).1
      (log ++ (s.step (.addTx txValidator tx)).2) := by
  rw [step]
  rcases s.worker.addTx_cases s.txIndex txValidator tx with
    hw | ⟨priority, hset, hidx, hfull, hw⟩
  · rw [hw]
    simp only [Nat.lt_irrefl, decide_false, Bool.false_eq_true, if_false, List.append_nil]
    exact h
  · have hrunning := (s.worker.addTx_requeued s.txIndex txValidator tx).running
    rw [hw] at hrunning ⊢
    have hsize : s.worker.pending.size < (s.worker.pushPending tx priority).pending.size := by
      show _ < (Heap.push PendingEntry.less s.worker.pending _).size
      rw [Heap.size_push]
      omega
    have hnew : batchedTxs (log ++ [.admitted tx]) = batchedTxs log := by
      rw [batchedTxs, createdBatches_append, List.flatMap_append]
      exact List.append_nil _
    have hall : admittedTxs (log ++ [.admitted tx]) = admittedTxs log ++ [tx] :=
      admittedTxs_append _ _
    rw [decide_eq_true hsize, if_pos rfl]
    refine ⟨hrunning.trans h.running, ⟨h.sound.pooled.pushPending hset hfull priority,
      h.sound.pooled.within_pushPending hfull hmem priority⟩, h.accepts, ?_, ?_, ?_⟩
    · rw [hnew, hall]
      have hpush := (s.worker.pendingTxs_pushPending tx priority).append_right (batchedTxs log)
      exact hpush.trans ((h.conserved.cons tx).trans (List.perm_append_singleton _ _).symm)
    · rw [hall, hashes, List.map_append]
      refine (List.perm_append_singleton _ _).nodup_iff.mpr (List.nodup_cons.mpr ⟨?_, h.once⟩)
      exact h.fresh hset hidx
    · rw [createdBatches_append]
      intro b hb
      exact h.indexed b (by simpa [createdBatches, WorkerOutput.createdBatch] using hb)

theorem Conserved.tryCreateBatch (h : Conserved given s log) (now : Int)
    (hgiven : ∀ b ∈ (s.worker.tryCreateBatch s.batchStore s.txIndex now).1.toList, given b) :
    Conserved given (s.step (.tryCreateBatch now)).1
      (log ++ (s.step (.tryCreateBatch now)).2) := by
  obtain ⟨hperm, hsound⟩ := h.sound.tryCreateBatch s.batchStore s.txIndex now
  rw [Worker.tryCreateBatch_eq] at hgiven
  have hgrown := (Worker.finishBatch_grown h.accepts s.worker.beginBatch.2 s.batchStore now
    (c := s.worker.beginBatch.1.map .popped) (by simp) hgiven).1
  rw [← Worker.tryCreateBatch_eq] at hgrown
  have hrunning : (s.worker.tryCreateBatch s.batchStore s.txIndex now).2.1.running =
      s.worker.running := by
    obtain ⟨w', hw', ⟨-, hw⟩ | ⟨batch, -, -, hw⟩⟩ :=
      s.worker.tryCreateBatch_cases s.batchStore s.txIndex now
    · rw [hw, hw'.running]
    · rw [hw]
      exact hw'.running
  rw [step]
  generalize s.worker.tryCreateBatch s.batchStore s.txIndex now = made at *
  have hall : admittedTxs (log ++ made.1.toList.map .created) = admittedTxs log := by
    rw [admittedTxs_append, admittedTxs_created, List.append_nil]
  have hbatches : createdBatches (log ++ made.1.toList.map .created) =
      createdBatches log ++ made.1.toList := by
    rw [createdBatches_append, createdBatches_created]
  refine ⟨hrunning.trans h.running, hsound, hgrown.accepts, ?_, ?_, ?_⟩
  · rw [hall, batchedTxs, hbatches, List.flatMap_append]
    refine List.Perm.trans ?_ h.conserved
    have hmoved := hperm.append_right (batchedTxs log)
    refine List.Perm.trans ?_ hmoved
    rw [List.append_assoc]
    exact (List.perm_append_comm.append_left _).trans
      ((List.perm_append_comm_assoc _ _ _))
  · rw [hall]
    exact h.once
  · rw [hbatches]
    intro b hb d hd
    rcases List.mem_append.mp hb with hold | hnew
    · exact hgrown.keeps (h.indexed b hold d hd)
    · exact hgrown.indexes b hnew d hd

theorem conserved_of_reach
    (hreach : Run.Reach (Started (· ∈ createdBatches log)) step Addressable s log) :
    Conserved (· ∈ createdBatches log) s log := by
  refine hreach.invariant (I := fun s made => (∀ b ∈ createdBatches made, b ∈ createdBatches log) →
    Conserved (· ∈ createdBatches log) s made) (fun s h _ => h.conserved) ?_ fun _ => id
  intro s made e h hmem hgiven
  rw [createdBatches_append] at hgiven
  have h := h fun b hb => hgiven b (List.mem_append_left _ hb)
  cases e with
  | addTx txValidator tx => exact h.addTx txValidator hmem
  | tryCreateBatch now =>
    refine h.tryCreateBatch now fun b hb => hgiven b (List.mem_append_right _ ?_)
    rw [step, createdBatches_created]
    exact hb

/-- After any sequence of complete calls, what was admitted is pending or batched, each hash in
one place only, and a batch that cannot be saved leaves the pending pool as it was. -/
theorem transactions_conserved
    (hreach : Run.Reach (Started (· ∈ createdBatches log)) step Addressable s log) :
    s.worker.pendingTxs ++ batchedTxs log ~ admittedTxs log ∧
    (s.worker.pendingHashes ++ hashes (batchedTxs log)).Nodup ∧
    (createdBatches log).Pairwise (fun b b' => b.txHashes.Disjoint b'.txHashes) ∧
    ∀ now, (s.worker.tryCreateBatch s.batchStore s.txIndex now).1 = none →
      let w := (s.worker.tryCreateBatch s.batchStore s.txIndex now).2.1
      (∀ h, w.pendingSet.has h = s.worker.pendingSet.has h) ∧
      w.pendingBytes = s.worker.pendingBytes ∧ w.pendingTxs ~ s.worker.pendingTxs := by
  have h := conserved_of_reach hreach
  have hnodup : (s.worker.pendingHashes ++ hashes (batchedTxs log)).Nodup := by
    have hhashes := h.conserved.map Transaction.hash
    rw [List.map_append] at hhashes
    rw [← Worker.hashes_pendingTxs]
    exact hhashes.nodup_iff.mpr h.once
  refine ⟨h.conserved, hnodup, ?_, fun now hnone => ?_⟩
  · have hbatched := (List.nodup_append.mp hnodup).2.1
    rw [hashes, batchedTxs, List.map_flatMap] at hbatched
    exact (List.nodup_flatMap.mp hbatched).2
  · obtain ⟨hperm, hsound⟩ := h.sound.tryCreateBatch s.batchStore s.txIndex now
    rw [hnone] at hperm
    obtain ⟨hset, hbytes⟩ := h.sound.pooled.of_pendingTxs_perm hsound.pooled hperm
    exact ⟨hset, hbytes, hperm⟩

end WorkerSystem

section

attribute [local instance] idealCrypto

/-- A worker whose batches have one transaction, over a batch store that is open or closed. -/
def tightWorker (closed : Bool) : WorkerSystem MemoryBatchStore MemoryTxIndex :=
  { worker := { Worker.new 0 0 tightConfig 3 with running := true }
    batchStore := { MemoryBatchStore.new with closed }, txIndex := .new }

def twoAndABatch : List WorkerCall :=
  [.addTx none [0], .addTx none [1], .addTx none [1], .tryCreateBatch 1]

/-- Of two transactions one is batched; with a store that fails both stay pending. -/
theorem transactions_conserved_tight :
    (∃ s log, Run.Reach (WorkerSystem.Started (· ∈ createdBatches log)) WorkerSystem.step
        WorkerSystem.Addressable (s : WorkerSystem MemoryBatchStore MemoryTxIndex) log ∧
      s.worker.pendingTxs = [[1]] ∧ WorkerSystem.batchedTxs log = [[0]] ∧
      s.worker.pendingTxs ++ WorkerSystem.batchedTxs log ~ admittedTxs log) ∧
    ∃ s log, Run.Reach (WorkerSystem.Started (· ∈ createdBatches log)) WorkerSystem.step
        WorkerSystem.Addressable (s : WorkerSystem MemoryBatchStore MemoryTxIndex) log ∧
      WorkerSystem.batchedTxs log = [] ∧
      s.worker.pendingTxs ++ WorkerSystem.batchedTxs log ~ admittedTxs log ∧
      (s.worker.tryCreateBatch s.batchStore s.txIndex 2).2.1.pendingBytes =
        s.worker.pendingBytes := by
  have hreach : ∀ closed, Run.AllOk WorkerSystem.step WorkerSystem.Addressable
      (tightWorker closed) [] twoAndABatch →
      Run.Reach (WorkerSystem.Started (· ∈ createdBatches
        (Run.exec WorkerSystem.step (tightWorker closed) [] twoAndABatch).2))
        WorkerSystem.step WorkerSystem.Addressable _ _ :=
    fun closed hok => Run.Reach.of_exec ⟨⟨0, 0, tightConfig, 3, rfl⟩, rfl⟩ hok
  have hopen := WorkerSystem.transactions_conserved (hreach false (by decide))
  have hclosed := WorkerSystem.transactions_conserved (hreach true (by decide))
  exact ⟨⟨_, _, hreach false (by decide), by decide, by decide, hopen.1⟩,
    _, _, hreach true (by decide), by decide, hclosed.1, (hclosed.2.2.2 2 (by decide)).2.1⟩

end

end DagMempool
