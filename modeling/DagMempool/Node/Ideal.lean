import DagMempool.Node.Step
import DagMempool.Store.MemoryBatch
import DagMempool.Store.MemoryCertificate
import DagMempool.Store.MemoryTxIndex
import DagMempool.Types.Ideal

/-!
# A node of an ideal network

A configuration, a set of four validators and stores in memory, over the ideal
signature scheme: a node that can be run. Runs of it show what a general statement
about nodes cannot, that something does happen.
-/

namespace DagMempool

/-- A node with one worker, which puts a single transaction in a batch, and which
makes headers without batches too. -/
def idealConfig (me : UInt16) (gcDepth : UInt64) : @Config idealCrypto :=
  @Config.mk idealCrypto me (idealSigner me) 1 1 1 100 1000
    { maxBatchesPerHeader := 10, voteTimeout := 1000, maxRoundGap := 10
      allowEmptyHeaders := true }
    100 gcDepth true 100 none

abbrev IdealNode :=
  @Looseberry MemoryBatchStore MemoryCertificateStore MemoryTxIndex idealCrypto

/-- Validator `me` of four, just started over empty stores. -/
def idealNode (me : UInt16) (gcDepth : UInt64) : IdealNode :=
  @Looseberry.start idealCrypto MemoryBatchStore MemoryCertificateStore MemoryTxIndex
    (idealConfig me gcDepth) (idealValidators 4 0) .new .new .new 0

/-- A step at a time, with every map walked as it is listed. -/
def idealEnv (now : Int) : Env :=
  { now, votes := .listed, orphans := fun _ => .listed, requests := .listed
    gc := { certs := .listed, uncommitted := .listed } }

/-- The events, one a tick of the clock. -/
def idealRun (events : List Event) : List (Event × Env) :=
  events.zipIdx.map fun e => (e.1, idealEnv (e.2 + 1))

section

open IdealScheme

/-- The node, and what it output, after some events. -/
def idealExec (me : UInt16) (gcDepth : UInt64) (events : List Event) :
    IdealNode × List Output :=
  Run.exec Looseberry.step (idealNode me gcDepth) [] (idealRun events)

theorem started_idealNode (me : UInt16) (gcDepth : UInt64) :
    (idealNode me gcDepth).Started :=
  ⟨_, _, _, _, _, _, rfl⟩

/-- The events of an ideal node are a run, if each meets the guard when it happens. -/
theorem reach_idealExec {init : IdealNode → Prop}
    {ok : IdealNode → List Output → Event × Env → Prop} (me : UInt16) (gcDepth : UInt64)
    (events : List Event) (hinit : init (idealNode me gcDepth))
    (hok : Run.AllOk Looseberry.step ok (idealNode me gcDepth) [] (idealRun events)) :
    Looseberry.Reach init ok (idealExec me gcDepth events).1
      (idealExec me gcDepth events).2 :=
  Run.Reach.of_exec ⟨started_idealNode me gcDepth, hinit⟩ hok

/-- The node after some events, with its history. -/
def idealPast (me : UInt16) (gcDepth : UInt64) (events : List Event) :
    IdealNode × List (IdealNode × (Event × Env)) :=
  Run.exec (Run.history Looseberry.step) (idealNode me gcDepth) [] (idealRun events)

theorem reach_idealPast
    {ok : IdealNode → List (IdealNode × (Event × Env)) → Event × Env → Prop} {me : UInt16}
    {gcDepth : UInt64} {events : List Event} {init : IdealNode → Prop}
    (hinit : init (idealNode me gcDepth))
    (hok : Run.AllOk (Run.history Looseberry.step) ok (idealNode me gcDepth) []
      (idealRun events)) :
    Looseberry.PastReach init ok (idealPast me gcDepth events).1
      (idealPast me gcDepth events).2 :=
  Run.Reach.of_exec ⟨started_idealNode me gcDepth, hinit⟩ hok

end

end DagMempool
