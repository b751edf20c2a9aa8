import DagMempool.Primary.Step
import DagMempool.Store.MemoryCertificate
import DagMempool.Types.Ideal

/-!
# A primary of an ideal network

Primary `0` of four validators, over a store in memory and the ideal signature
scheme, with whatever callback it is given: a primary that can be run.
-/

namespace DagMempool

def idealPrimaryConfig : PrimaryConfig :=
  { maxBatchesPerHeader := 10, voteTimeout := 1, maxRoundGap := 10
    allowEmptyHeaders := true }

section

open IdealScheme

variable {κ : Type}

def idealPrimary (sink : κ) : PrimarySystem κ MemoryCertificateStore :=
  { primary := PrimarySystem.startPrimary 0 (idealSigner 0) idealPrimaryConfig
      (idealValidators 4 0)
    certStore := .new, sink }

/-- The events, one a tick of the clock. -/
def idealPrimaryRun (events : List PrimaryEvent) : List (PrimaryEvent × PrimaryEnv) :=
  events.zipIdx.map fun e => (e.1, { now := e.2 + 1, votes := .listed })

/-- The primary, and the marks it left, after some events. -/
def idealPrimaryExec (callback : CertSink κ MemoryCertificateStore) (sink : κ)
    (events : List PrimaryEvent) :
    PrimarySystem κ MemoryCertificateStore × List PrimaryMark :=
  Run.exec (PrimarySystem.step callback) (idealPrimary sink) [] (idealPrimaryRun events)

/-- The events of an ideal primary are a run, if each meets the guard when it
happens. -/
theorem reach_idealPrimaryExec {callback : CertSink κ MemoryCertificateStore} {sink : κ}
    {init : PrimarySystem κ MemoryCertificateStore → Prop}
    {ok : PrimarySystem κ MemoryCertificateStore → List PrimaryMark →
      PrimaryEvent × PrimaryEnv → Prop} {events : List PrimaryEvent}
    (hinit : init (idealPrimary sink))
    (hok : Run.AllOk (PrimarySystem.step callback) ok (idealPrimary sink) []
      (idealPrimaryRun events)) :
    Run.Reach init (PrimarySystem.step callback) ok
      (idealPrimaryExec callback sink events).1 (idealPrimaryExec callback sink events).2 :=
  Run.Reach.of_exec hinit hok

end

end DagMempool
