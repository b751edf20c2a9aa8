import DagMempool.Lib.Run
import DagMempool.Worker.Pool

/-!
# Runs of a worker pool

`tryCreateBatch` holds the lock of its worker only while it takes transactions off
the heap; it saves and indexes the batch after that, while other calls go on. Here
it is cut into those three steps, each worker being in the middle of at most one
batch, and an event is one call of the pool or one such step of one of its workers.
`ScaleDown` drains the last worker first and then waits for it to stop, so that the
batch it is just making is finished in between. The batches that were saved are the
outputs of a run.
-/

namespace DagMempool

/-- How far a worker has come with a batch. -/
inductive BatchCreation where
  | popped (txs : List Transaction)
  | saved (batch : Batch)

namespace Worker

variable [Crypto] {BS TI : Type} [BatchStore BS] [TxIndex TI]

/-- `tryCreateBatch` up to the point where it gives the lock back. -/
def beginBatch (w : Worker) : Option (List Transaction) × Worker :=
  if w.pending.size = 0 then (none, w)
  else
    let popped := w.popBatch (min w.cfg.batchSize w.pending.size) [] 0
    (some popped.1,
      { popped.2.2 with pendingBytes := popped.2.2.pendingBytes - popped.2.1 })

/-- From the batch made of the transactions taken to the answer of the store. -/
def saveTxs (w : Worker) (batchStore : BS) (txs : List Transaction) (now : Int) :
    Option Batch × Worker × BS :=
  let batch := Batch.new w.id w.validatorID w.round txs (Int64.ofInt now)
  let saved := BatchStore.saveBatch batchStore batch
  match saved.1 with
  | .error _ => (none, w.requeueTransactions txs, saved.2)
  | .ok () => (some batch, w, saved.2)

/-- What remains once the batch is saved. -/
def indexBatch (w : Worker) (txIndex : TI) (batch : Batch) (now : Int) : Worker × TI :=
  let tracked := w.ackTracker.trackBatch batch now
  let acked := tracked.recordAck batch.digest w.validatorID
  ({ w with ackTracker := acked.2 }, (TxIndex.addBatch txIndex batch).2)

/-- From wherever the worker is with its batch to the end. -/
def finishBatch (w : Worker) (batchStore : BS) (txIndex : TI) (now : Int) :
    Option BatchCreation → Option Batch × Worker × BS × TI
  | none => (none, w, batchStore, txIndex)
  | some (.popped txs) =>
    let saved := w.saveTxs batchStore txs now
    match saved.1 with
    | none => (none, saved.2.1, saved.2.2, txIndex)
    | some batch =>
      let indexed := saved.2.1.indexBatch txIndex batch now
      (some batch, indexed.1, saved.2.2, indexed.2)
  | some (.saved batch) =>
    let indexed := w.indexBatch txIndex batch now
    (none, indexed.1, batchStore, indexed.2)

theorem tryCreateBatch_eq (w : Worker) (batchStore : BS) (txIndex : TI) (now : Int) :
    w.tryCreateBatch batchStore txIndex now =
      w.beginBatch.2.finishBatch batchStore txIndex now (w.beginBatch.1.map .popped) := by
  unfold tryCreateBatch beginBatch
  split
  · rfl
  · dsimp only [Option.map_some, finishBatch, saveTxs]
    generalize BatchStore.saveBatch batchStore _ = saved
    obtain ⟨answer, batchStore'⟩ := saved
    cases answer with
    | error cause => rfl
    | ok => rfl

theorem beginBatch_requeued (w : Worker) : w.Requeued w.beginBatch.2 := by
  unfold beginBatch
  split
  · exact .refl w
  · exact (w.popBatch_requeued _ [] 0).trans ⟨⟨_, _, _, _, rfl⟩, fun h => h,
      fun h => ⟨h.nodup, h.has_iff⟩⟩

theorem saveTxs_requeued (w : Worker) (batchStore : BS) (txs : List Transaction) (now : Int) :
    w.Requeued (w.saveTxs batchStore txs now).2.1 := by
  unfold saveTxs
  dsimp only
  split
  · exact w.requeueTransactions_requeued txs
  · exact .refl w

end Worker

inductive PoolEvent where
  | addTx (tx : Transaction)
  | scaleUp
  | scaleDown
  | pop (idx : Nat)
  | save (idx : Nat)
  | index (idx : Nat)
  /-- Also stands for a validator that has come to answer differently. -/
  | setTxValidator (txValidator : Option TxValidator)
  | setRound (round : UInt64)
  | updateQuorum (quorum : Nat)
  | recordAck (batchDigest : Hash) (validator : UInt16)
  | removeTimedOutAcks

/-- A pool with the stores its workers share, and how far each worker has come with
its batch. -/
structure PoolSystem (BS TI : Type) where
  pool : Pool
  batchStore : BS
  txIndex : TI
  creating : List (Option BatchCreation)

namespace PoolSystem

variable [Crypto] {BS TI : Type} [BatchStore BS] [TxIndex TI]

/-- The worker to be removed, drained, is stopped: the batch it is making is
finished, and the batch loop makes a last one. -/
def stopRemoved (s : PoolSystem BS TI) (w : Worker) (now : Int) : List Batch × BS × TI :=
  let finished := w.drainPending.2.finishBatch s.batchStore s.txIndex now
    s.creating.getLast?.join
  let stopped := finished.2.1.stop finished.2.2.1 finished.2.2.2 now
  (finished.1.toList ++ stopped.1.toList, stopped.2.2)

def scaleDown (s : PoolSystem BS TI) (now : Int) : PoolSystem BS TI × List Batch :=
  if !s.pool.running then (s, [])
  else if s.pool.workers.length ≤ s.pool.cfg.minWorkers then (s, [])
  else match s.pool.workers.getLast? with
    | none => (s, [])
    | some w =>
      let stopped := s.stopRemoved w now
      let p := { s.pool with workers := s.pool.workers.dropLast }
      ({ pool := p.addTxs stopped.2.2 w.drainPending.1, batchStore := stopped.2.1
         txIndex := stopped.2.2, creating := s.creating.dropLast }, stopped.1)

/-- Every worker is stopped in turn, as the removed one is, but with what it has pending. -/
def stopWorkers (batchStore : BS) (txIndex : TI) (now : Int) :
    List (Worker × Option BatchCreation) → List Batch × BS × TI
  | [] => ([], batchStore, txIndex)
  | (w, creation) :: ws =>
    let finished := w.finishBatch batchStore txIndex now creation
    let stopped := finished.2.1.stop finished.2.2.1 finished.2.2.2 now
    let rest := stopWorkers stopped.2.2.1 stopped.2.2.2 now ws
    (finished.1.toList ++ stopped.1.toList ++ rest.1, rest.2)

def stop (s : PoolSystem BS TI) (now : Int) : PoolSystem BS TI × List Batch :=
  if !s.pool.running then (s, [])
  else
    let stopped := stopWorkers s.batchStore s.txIndex now (s.pool.workers.zip s.creating)
    ({ pool := { s.pool with running := false, workers := [] }, batchStore := stopped.2.1
       txIndex := stopped.2.2, creating := [] }, stopped.1)

/-- One worker, and how far it has come with its batch, replaced. -/
def withWorker (s : PoolSystem BS TI) (idx : Nat) (w : Worker)
    (creation : Option BatchCreation) : PoolSystem BS TI :=
  { s with
    pool := { s.pool with workers := s.pool.workers.set idx w }
    creating := s.creating.set idx creation }

def step (s : PoolSystem BS TI) : PoolEvent × Int → PoolSystem BS TI × List Batch
  | (.addTx tx, _) => ({ s with pool := (s.pool.addTx s.txIndex tx).2 }, [])
  | (.scaleUp, _) =>
    let pool := s.pool.scaleUp
    ({ s with pool, creating := s.creating.rightpad pool.workers.length none }, [])
  | (.scaleDown, now) => s.scaleDown now
  | (.pop idx, _) =>
    match s.pool.workers[idx]?, s.creating[idx]? with
    | some w, some none => (s.withWorker idx w.beginBatch.2 (w.beginBatch.1.map .popped), [])
    | _, _ => (s, [])
  | (.save idx, now) =>
    match s.pool.workers[idx]?, s.creating[idx]? with
    | some w, some (some (.popped txs)) =>
      let saved := w.saveTxs s.batchStore txs now
      ({ s.withWorker idx saved.2.1 (saved.1.map .saved) with batchStore := saved.2.2 },
        saved.1.toList)
    | _, _ => (s, [])
  | (.index idx, now) =>
    match s.pool.workers[idx]?, s.creating[idx]? with
    | some w, some (some (.saved batch)) =>
      let indexed := w.indexBatch s.txIndex batch now
      ({ s.withWorker idx indexed.1 none with txIndex := indexed.2 }, [])
    | _, _ => (s, [])
  | (.setTxValidator txValidator, _) => ({ s with pool := { s.pool with txValidator } }, [])
  | (.setRound round, _) => ({ s with pool := s.pool.setRound round }, [])
  | (.updateQuorum quorum, _) => ({ s with pool := s.pool.updateQuorum quorum }, [])
  | (.recordAck batchDigest validator, _) =>
    ({ s with pool := s.pool.recordAck batchDigest validator }, [])
  | (.removeTimedOutAcks, now) => ({ s with pool := s.pool.removeTimedOutAcks now }, [])

/-- A pool just started, over whatever stores. -/
def Started (s : PoolSystem BS TI) : Prop :=
  ∃ cfg validatorID quorum txValidator,
    s.pool = (Pool.new cfg validatorID quorum txValidator).start ∧
      s.creating = List.replicate s.pool.workers.length none

end PoolSystem

end DagMempool
