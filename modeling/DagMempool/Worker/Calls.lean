import DagMempool.Worker.Worker

/-!
# The calls of a worker

One worker with the store and the index it writes to. A run is any sequence of `AddTx` and
`tryCreateBatch`, each call complete before the next begins; the validator may answer
differently each time, and so may the store. What a call does to the outside is its output.
-/

namespace DagMempool

inductive WorkerCall where
  | addTx (txValidator : Option TxValidator) (tx : Transaction)
  | tryCreateBatch (now : Int)

inductive WorkerOutput where
  /-- `AddTx` answers the same for a transaction it knows; this one is new. -/
  | admitted (tx : Transaction)
  | created (batch : Batch)

namespace WorkerOutput

def admittedTx : WorkerOutput → Option Transaction
  | .admitted tx => some tx
  | .created _ => none

def createdBatch : WorkerOutput → Option Batch
  | .admitted _ => none
  | .created batch => some batch

end WorkerOutput

/-- All transactions newly admitted. -/
def admittedTxs (log : List WorkerOutput) : List Transaction :=
  log.filterMap WorkerOutput.admittedTx

/-- All batches passed to the callback. -/
def createdBatches (log : List WorkerOutput) : List Batch :=
  log.filterMap WorkerOutput.createdBatch

theorem admittedTxs_append (log log' : List WorkerOutput) :
    admittedTxs (log ++ log') = admittedTxs log ++ admittedTxs log' :=
  List.filterMap_append

theorem createdBatches_append (log log' : List WorkerOutput) :
    createdBatches (log ++ log') = createdBatches log ++ createdBatches log' :=
  List.filterMap_append

theorem admittedTxs_created (batches : List Batch) : admittedTxs (batches.map .created) = [] := by
  simp [admittedTxs, List.filterMap_map, Function.comp_def, WorkerOutput.admittedTx]

theorem createdBatches_created (batches : List Batch) :
    createdBatches (batches.map .created) = batches := by
  simp [createdBatches, List.filterMap_map, Function.comp_def, WorkerOutput.createdBatch]

structure WorkerSystem (BS TI : Type) where
  worker : Worker
  batchStore : BS
  txIndex : TI

namespace WorkerSystem

variable [Crypto] {BS TI : Type} [BatchStore BS] [TxIndex TI]

def step (s : WorkerSystem BS TI) : WorkerCall → WorkerSystem BS TI × List WorkerOutput
  | .addTx txValidator tx =>
    let added := s.worker.addTx s.txIndex txValidator tx
    -- New is what makes the pending pool larger.
    let isNew := decide (s.worker.pending.size < added.2.pending.size)
    ({ s with worker := added.2 }, if isNew then [.admitted tx] else [])
  | .tryCreateBatch now =>
    let made := s.worker.tryCreateBatch s.batchStore s.txIndex now
    ({ worker := made.2.1, batchStore := made.2.2.1, txIndex := made.2.2.2 },
      made.1.toList.map .created)

/-- The batch loop ends with a last batch. -/
def stop (s : WorkerSystem BS TI) (now : Int) : WorkerSystem BS TI × List WorkerOutput :=
  let stopped := s.worker.stop s.batchStore s.txIndex now
  ({ worker := stopped.2.1, batchStore := stopped.2.2.1, txIndex := stopped.2.2.2 },
    stopped.1.toList.map .created)

/-- A worker just started, over whatever store and an index that takes some batches. -/
def Started [AcceptingTxIndex TI] (given : Batch → Prop) (s : WorkerSystem BS TI) : Prop :=
  (∃ id validatorID cfg quorum,
    s.worker = { Worker.new id validatorID cfg quorum with running := true }) ∧
    AcceptingTxIndex.accepts given s.txIndex

end WorkerSystem

end DagMempool
