import DagMempool.Lib.HeapOrder
import DagMempool.Store.Store
import DagMempool.Worker.AckTracker

/-!
# Workers

A worker holds pending transactions in a priority heap, next to the set of their
hashes and their total size, and makes batches of them. A batch is stamped with
the worker's `round`, which only `SetRound` changes.

The channel by which `AddTx` asks for an early batch is not here: the batch loop
may run `tryCreateBatch` at any time anyway.
-/

namespace DagMempool

/-- `worker.Config`, without the batch timeout that only drives the ticker. -/
structure WorkerConfig where
  batchSize : Nat
  batchBytes : Int64
  maxPendingTxs : Nat
  maxPendingBytes : Int64
  ackTimeout : Int

/-- The part of `TxAdmission` a worker reads. -/
structure TxAdmission where
  priority : Int64

/-- The application's check: an admission, or the text of a refusal. -/
abbrev TxValidator := Transaction → Except String TxAdmission

/-- Without a validator every transaction is admitted, with priority `0`. -/
def validateTx (txValidator : Option TxValidator) (tx : Transaction) :
    Except String TxAdmission :=
  match txValidator with
  | none => .ok { priority := 0 }
  | some validate => validate tx

structure PendingEntry where
  tx : Transaction
  priority : Int64
  sequence : UInt64

/-- `priorityQueue.Less`: by priority, highest first, then by arrival. -/
def PendingEntry.less (a b : PendingEntry) : Bool :=
  if a.priority ≠ b.priority then decide (b.priority < a.priority)
  else decide (a.sequence < b.sequence)

namespace PendingEntry

theorem less_eq_true {a b : PendingEntry} :
    a.less b = true ↔ b.priority.toInt < a.priority.toInt ∨
      a.priority.toInt = b.priority.toInt ∧ a.sequence.toNat < b.sequence.toNat := by
  rw [less]
  simp only [Ne, ← Int64.toInt_inj]
  split
  · next hne =>
      rw [decide_eq_true_eq, Int64.lt_iff_toInt_lt]
      omega
  · next heq =>
      rw [decide_eq_true_eq, UInt64.lt_iff_toNat_lt]
      omega

theorem less_eq_false {a b : PendingEntry} :
    a.less b = false ↔ a.priority.toInt < b.priority.toInt ∨
      a.priority.toInt = b.priority.toInt ∧ b.sequence.toNat ≤ a.sequence.toNat := by
  rw [← Bool.not_eq_true, less_eq_true]
  omega

theorem weakOrder_less : Heap.WeakOrder less where
  asymm h := by
    rw [less_eq_true] at h
    rw [less_eq_false]
    omega
  trans h h' := by
    rw [less_eq_false] at h h' ⊢
    omega

end PendingEntry

structure Worker where
  id : UInt16
  validatorID : UInt16
  cfg : WorkerConfig
  round : UInt64
  pending : Array PendingEntry
  pendingSet : GoMap Hash Unit
  pendingBytes : Int64
  pendingSeq : UInt64
  ackTracker : AckTracker
  running : Bool

namespace Worker

def new (id validatorID : UInt16) (cfg : WorkerConfig) (quorum : Nat) : Worker :=
  { id, validatorID, cfg, round := 0, pending := #[], pendingSet := ∅, pendingBytes := 0
    pendingSeq := 0, ackTracker := .new quorum cfg.ackTimeout, running := false }

def setRound (w : Worker) (round : UInt64) : Worker := { w with round }

/-- The pending pool is full for a transaction of this size. -/
def full (w : Worker) (tx : Transaction) : Bool :=
  decide (w.cfg.maxPendingTxs ≤ w.pending.size) ||
    decide (w.cfg.maxPendingBytes < w.pendingBytes + Int64.ofNat tx.size)

theorem full_eq_false (w : Worker) (tx : Transaction) :
    w.full tx = false ↔ w.pending.size < w.cfg.maxPendingTxs ∧
      w.pendingBytes + Int64.ofNat tx.size ≤ w.cfg.maxPendingBytes := by
  simp [full, Int64.not_lt]

variable [Crypto]

/-- The writes of `AddTx` and of `requeueTransactions` for one transaction. -/
def pushPending (w : Worker) (tx : Transaction) (priority : Int64) : Worker :=
  let entry : PendingEntry := { tx, priority, sequence := w.pendingSeq + 1 }
  { w with
    pendingSeq := w.pendingSeq + 1
    pending := Heap.push PendingEntry.less w.pending entry
    pendingSet := w.pendingSet.set tx.hash ()
    pendingBytes := w.pendingBytes + Int64.ofNat tx.size }

def addTx {TI : Type} [TxIndex TI] (w : Worker) (txIndex : TI)
    (txValidator : Option TxValidator) (tx : Transaction) : Except GoError Unit × Worker :=
  if !w.running then (.error .notRunning, w)
  else match validateTx txValidator tx with
    | .error cause => (.error (.txValidationFailed cause), w)
    | .ok admission =>
      if w.pendingSet.has tx.hash then (.ok (), w)
      else if TxIndex.hasTx txIndex tx.hash then (.ok (), w)
      else if w.full tx then (.error .workerBackpressure, w)
      else (.ok (), w.pushPending tx admission.priority)

/-- All pending transactions, in heap order, and the worker without them. -/
def drainPending (w : Worker) : List Transaction × Worker :=
  if w.pending.size = 0 then ([], w)
  else
    (w.pending.toList.map (·.tx),
      { w with pending := #[], pendingSet := ∅, pendingBytes := 0 })

/-- The loop of `tryCreateBatch`: at most `maxCount` more transactions come off the
heap, and fewer if the next one would exceed the byte limit. -/
def popBatch (w : Worker) :
    Nat → List Transaction → Int64 → List Transaction × Int64 × Worker
  | 0, txs, batchBytes => (txs, batchBytes, w)
  | maxCount + 1, txs, batchBytes =>
    match Heap.pop PendingEntry.less w.pending with
    | none => (txs, batchBytes, w)
    | some (entry, rest) =>
      let txBytes := Int64.ofNat entry.tx.size
      if 0 < w.cfg.batchBytes ∧ 0 < txs.length ∧ w.cfg.batchBytes < batchBytes + txBytes then
        (txs, batchBytes, w)
      else
        popBatch
          { w with pending := rest, pendingSet := w.pendingSet.del entry.tx.hash }
          maxCount (txs ++ [entry.tx]) (batchBytes + txBytes)

/-- Transactions go back with priority `0` until the limits are reached; the rest
are dropped. -/
def requeueTransactions (w : Worker) : List Transaction → Worker
  | [] => w
  | tx :: txs =>
    if w.pendingSet.has tx.hash then w.requeueTransactions txs
    else if w.full tx then w
    else (w.pushPending tx 0).requeueTransactions txs

/-- The batch created, if one was, and if it could be stored. -/
def tryCreateBatch {BS TI : Type} [BatchStore BS] [TxIndex TI] (w : Worker)
    (batchStore : BS) (txIndex : TI) (now : Int) : Option Batch × Worker × BS × TI :=
  if w.pending.size = 0 then (none, w, batchStore, txIndex)
  else
    let popped := w.popBatch (min w.cfg.batchSize w.pending.size) [] 0
    let w := { popped.2.2 with pendingBytes := popped.2.2.pendingBytes - popped.2.1 }
    let batch := Batch.new w.id w.validatorID w.round popped.1 (Int64.ofInt now)
    let saved := BatchStore.saveBatch batchStore batch
    match saved.1 with
    | .error _ => (none, w.requeueTransactions popped.1, saved.2, txIndex)
    | .ok () =>
      let txIndex := (TxIndex.addBatch txIndex batch).2
      -- The creator acks its own batch.
      let tracked := w.ackTracker.trackBatch batch now
      let acked := tracked.recordAck batch.digest w.validatorID
      (some batch, { w with ackTracker := acked.2 }, saved.2, txIndex)

/-- The batch loop makes a last batch before it ends. -/
def stop {BS TI : Type} [BatchStore BS] [TxIndex TI] (w : Worker) (batchStore : BS)
    (txIndex : TI) (now : Int) : Option Batch × Worker × BS × TI :=
  if !w.running then (none, w, batchStore, txIndex)
  else
    let last := { w with running := false }.tryCreateBatch batchStore txIndex now
    (last.1, { last.2.1 with ackTracker := last.2.1.ackTracker.close }, last.2.2)

/-! ## The queue

What is pending is in order if it is a heap and the set next to it is that of its hashes, none
of which is there twice. Whatever a worker does to its queue keeps it in order and leaves the
rest of the worker alone. -/

def pendingHashes (w : Worker) : List Hash := w.pending.toList.map (·.tx.hash)

structure Queued (w : Worker) : Prop where
  nodup : w.pendingHashes.Nodup
  has_iff : ∀ h, w.pendingSet.has h = true ↔ h ∈ w.pendingHashes

def Heaped (w : Worker) : Prop := Heap.Ordered PendingEntry.less w.pending.size w.pending

/-- Only the queue of pending transactions differs, and it is in order if it was. -/
structure Requeued (w w' : Worker) : Prop where
  same : ∃ pending pendingSet pendingBytes pendingSeq,
    w' = { w with pending, pendingSet, pendingBytes, pendingSeq }
  heaped : w.Heaped → w'.Heaped
  queued : w.Queued → w'.Queued

variable {w w' : Worker}

theorem Queued.of_empty (hpending : w.pending = #[]) (hset : w.pendingSet = ∅) : w.Queued where
  nodup := by simp [pendingHashes, hpending]
  has_iff h := by simp [pendingHashes, hpending, hset, GoMap.has_iff]

theorem pushPending_perm (w : Worker) (tx : Transaction) (priority : Int64) :
    (w.pushPending tx priority).pendingHashes.Perm (tx.hash :: w.pendingHashes) :=
  (Heap.push_perm w.pending _).map _

theorem Queued.pushPending (hw : w.Queued) {tx : Transaction}
    (hset : w.pendingSet.has tx.hash = false) (priority : Int64) :
    (w.pushPending tx priority).Queued where
  nodup := by
    refine (pushPending_perm w tx priority).nodup_iff.mpr (List.nodup_cons.mpr ⟨?_, hw.nodup⟩)
    rw [← hw.has_iff, hset]
    exact Bool.false_ne_true
  has_iff h := by
    rw [(pushPending_perm w tx priority).mem_iff, List.mem_cons, ← hw.has_iff]
    exact GoMap.has_set

theorem Queued.pop (hw : w.Queued) {entry : PendingEntry} {rest : Array PendingEntry}
    (hpop : Heap.pop PendingEntry.less w.pending = some (entry, rest)) :
    { w with pending := rest, pendingSet := w.pendingSet.del entry.tx.hash }.Queued := by
  have hperm : w.pendingHashes.Perm (entry.tx.hash :: rest.toList.map (·.tx.hash)) :=
    (Heap.pop_perm hpop).map _
  obtain ⟨hnew, hnodup⟩ := List.nodup_cons.mp (hperm.nodup_iff.mp hw.nodup)
  refine ⟨hnodup, fun h => ?_⟩
  have hmem := hw.has_iff h
  rw [hperm.mem_iff, List.mem_cons] at hmem
  rw [GoMap.has_del, hmem]
  constructor
  · rintro ⟨hne, heq | hin⟩
    · exact absurd heq hne
    · exact hin
  · intro hin
    refine ⟨?_, .inr hin⟩
    rintro rfl
    exact hnew hin

theorem Requeued.refl (w : Worker) : w.Requeued w := ⟨⟨_, _, _, _, rfl⟩, fun h => h, fun h => h⟩

theorem Requeued.trans {w'' : Worker} (h : w.Requeued w') (h' : w'.Requeued w'') :
    w.Requeued w'' := by
  obtain ⟨⟨_, _, _, _, rfl⟩, hheaped, hqueued⟩ := h
  obtain ⟨⟨_, _, _, _, rfl⟩, hheaped', hqueued'⟩ := h'
  exact ⟨⟨_, _, _, _, rfl⟩, fun hw => hheaped' (hheaped hw), fun hw => hqueued' (hqueued hw)⟩

theorem Requeued.running (h : w.Requeued w') : w'.running = w.running := by
  obtain ⟨_, _, _, _, rfl⟩ := h.same
  rfl

theorem Requeued.withTracker (h : w.Requeued w') (ackTracker : AckTracker) :
    { w with ackTracker }.Requeued { w' with ackTracker } := by
  obtain ⟨⟨_, _, _, _, rfl⟩, hheaped, hqueued⟩ := h
  refine ⟨⟨_, _, _, _, rfl⟩, hheaped, fun hw => ?_⟩
  obtain ⟨hnodup, hhas⟩ := hqueued ⟨hw.nodup, hw.has_iff⟩
  exact ⟨hnodup, hhas⟩

theorem pushPending_requeued {tx : Transaction} (hset : w.pendingSet.has tx.hash = false)
    (priority : Int64) : w.Requeued (w.pushPending tx priority) :=
  ⟨⟨_, _, _, _, rfl⟩, fun hw => Heap.push_ordered PendingEntry.weakOrder_less hw _,
    fun hw => hw.pushPending hset priority⟩

theorem addTx_requeued {TI : Type} [TxIndex TI] (w : Worker) (txIndex : TI)
    (txValidator : Option TxValidator) (tx : Transaction) :
    w.Requeued (w.addTx txIndex txValidator tx).2 := by
  unfold addTx
  split
  · exact .refl w
  · split
    · exact .refl w
    · split
      · exact .refl w
      · next hset =>
          split
          · exact .refl w
          · split
            · exact .refl w
            · exact pushPending_requeued (eq_false_of_ne_true hset) _

/-- What is kept by taking one entry off the heap is kept by taking a batch. -/
theorem popBatch_induction {motive : List Transaction → Int64 → Worker → Prop}
    (pop : ∀ (w : Worker) (txs : List Transaction) (batchBytes : Int64) (entry : PendingEntry)
      (rest : Array PendingEntry), Heap.pop PendingEntry.less w.pending = some (entry, rest) →
      motive txs batchBytes w →
      motive (txs ++ [entry.tx]) (batchBytes + Int64.ofNat entry.tx.size)
        { w with pending := rest, pendingSet := w.pendingSet.del entry.tx.hash })
    {w : Worker} {txs : List Transaction} {batchBytes : Int64} (h : motive txs batchBytes w)
    (maxCount : Nat) :
    motive (w.popBatch maxCount txs batchBytes).1 (w.popBatch maxCount txs batchBytes).2.1
      (w.popBatch maxCount txs batchBytes).2.2 := by
  induction maxCount generalizing w txs batchBytes with
  | zero => exact h
  | succ maxCount ih =>
    rw [popBatch]
    split
    · exact h
    · next entry rest hpop =>
        dsimp only
        split
        · exact h
        · exact ih (pop w txs batchBytes entry rest hpop h)

theorem popBatch_requeued (w : Worker) (maxCount : Nat) (txs : List Transaction)
    (batchBytes : Int64) : w.Requeued (w.popBatch maxCount txs batchBytes).2.2 :=
  popBatch_induction (motive := fun _ _ w' => w.Requeued w')
    (fun _ _ _ _ _ hpop h => h.trans ⟨⟨_, _, _, _, rfl⟩,
      fun hw => (Heap.pop_ordered PendingEntry.weakOrder_less hw hpop).2, fun hw => hw.pop hpop⟩)
    (.refl w) maxCount

theorem requeueTransactions_requeued (w : Worker) (txs : List Transaction) :
    w.Requeued (w.requeueTransactions txs) := by
  induction txs generalizing w with
  | nil => exact .refl w
  | cons tx txs ih =>
    rw [requeueTransactions]
    split
    · exact ih w
    · next hset =>
        split
        · exact .refl w
        · exact (pushPending_requeued (eq_false_of_ne_true hset) 0).trans (ih _)

/-- No batch is made and only the queue differs, or one is made, tracked, and
acknowledged by its creator. -/
theorem tryCreateBatch_cases {BS TI : Type} [BatchStore BS] [TxIndex TI] (w : Worker)
    (batchStore : BS) (txIndex : TI) (now : Int) :
    ∃ w', w.Requeued w' ∧
      (((w.tryCreateBatch batchStore txIndex now).1 = none ∧
          (w.tryCreateBatch batchStore txIndex now).2.1 = w') ∨
        ∃ batch : Batch, batch.validatorID = w.validatorID ∧
          (w.tryCreateBatch batchStore txIndex now).1 = some batch ∧
          (w.tryCreateBatch batchStore txIndex now).2.1 =
            { w' with ackTracker :=
                ((w.ackTracker.trackBatch batch now).recordAck batch.digest
                  w.validatorID).2 }) := by
  unfold tryCreateBatch
  split
  · exact ⟨w, .refl w, .inl ⟨rfl, rfl⟩⟩
  · have hpopped := w.popBatch_requeued (min w.cfg.batchSize w.pending.size) [] 0
    generalize w.popBatch (min w.cfg.batchSize w.pending.size) [] 0 = popped at hpopped
    have hrest : w.Requeued
        { popped.2.2 with pendingBytes := popped.2.2.pendingBytes - popped.2.1 } :=
      hpopped.trans ⟨⟨_, _, _, _, rfl⟩, fun h => h, fun h => ⟨h.nodup, h.has_iff⟩⟩
    dsimp only
    split
    · exact ⟨_, hrest.trans (requeueTransactions_requeued _ _), .inl ⟨rfl, rfl⟩⟩
    · obtain ⟨txs, batchBytes, w'⟩ := popped
      obtain ⟨_, _, _, _, rfl⟩ := hpopped.same
      exact ⟨_, hrest, .inr ⟨_, rfl, rfl, rfl⟩⟩

/-! ## What workers do to the batch store -/

theorem tryCreateBatch_saved {BS TI : Type} [BatchStore BS] [TxIndex TI] (w : Worker)
    (batchStore : BS) (txIndex : TI) (now : Int) :
    BatchesSaved (fun b => b.verify = true) batchStore
      (w.tryCreateBatch batchStore txIndex now).2.2.1 := by
  unfold tryCreateBatch
  split
  · exact .refl _
  · dsimp only
    split
    · exact .one (Batch.verify_new ..)
    · exact .one (Batch.verify_new ..)

theorem stop_saved {BS TI : Type} [BatchStore BS] [TxIndex TI] (w : Worker)
    (batchStore : BS) (txIndex : TI) (now : Int) :
    BatchesSaved (fun b => b.verify = true) batchStore
      (w.stop batchStore txIndex now).2.2.1 := by
  unfold stop
  split
  · exact .refl _
  · exact tryCreateBatch_saved _ _ _ _

end Worker

end DagMempool
