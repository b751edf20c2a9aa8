import DagMempool.Store.MemoryBatch
import DagMempool.Store.MemoryTxIndex
import DagMempool.Types.Ideal
import DagMempool.Worker.Step

/-!
# A pool that can be run

One worker at first and two at most, over stores in memory and the ideal hash, with
room for a given number of transactions in each worker.
-/

namespace DagMempool

def idealPoolConfig (maxPendingTxs : Nat) : PoolConfig :=
  { minWorkers := 1, maxWorkers := 2
    worker := { batchSize := 10, batchBytes := 1000, maxPendingTxs, maxPendingBytes := 1000
                ackTimeout := 100 } }

abbrev IdealPool := PoolSystem MemoryBatchStore MemoryTxIndex

def idealPool (maxPendingTxs : Nat) : IdealPool :=
  { pool := (Pool.new (idealPoolConfig maxPendingTxs) 0 3 none).start
    batchStore := .new, txIndex := .new, creating := [none] }

theorem started_idealPool (maxPendingTxs : Nat) : (idealPool maxPendingTxs).Started :=
  ⟨_, _, _, _, rfl, rfl⟩

/-- The events, one a tick of the clock. -/
def idealPoolRun (events : List PoolEvent) : List (PoolEvent × Int) :=
  events.zipIdx.map fun e => (e.1, (e.2 : Int) + 1)

section

attribute [local instance] idealCrypto

/-- The pool, and the batches it created, after some events. -/
def idealPoolExec (maxPendingTxs : Nat) (events : List PoolEvent) : IdealPool × List Batch :=
  Run.exec PoolSystem.step (idealPool maxPendingTxs) [] (idealPoolRun events)

/-- The events of an ideal pool are a run, if each meets the guard when it happens. -/
theorem reach_idealPoolExec {maxPendingTxs : Nat} {events : List PoolEvent}
    {init : IdealPool → Prop} {ok : IdealPool → List Batch → PoolEvent × Int → Prop}
    (hinit : init (idealPool maxPendingTxs))
    (hok : Run.AllOk PoolSystem.step ok (idealPool maxPendingTxs) [] (idealPoolRun events)) :
    Run.Reach init PoolSystem.step ok (idealPoolExec maxPendingTxs events).1
      (idealPoolExec maxPendingTxs events).2 :=
  Run.Reach.of_exec hinit hok

/-- A transaction of one byte is routed to the first worker, whatever the pool's size;
this one, to the second of two. -/
def longTx : Transaction := List.replicate 32 1

example : (idealPool 1).pool.scaleUp.route [1] = 0 ∧
    (idealPool 1).pool.scaleUp.route longTx = 1 := by decide +kernel

end

end DagMempool
