import DagMempool.Dag.CausalHistory
import DagMempool.Dag.Rounds
import DagMempool.Lib.Run

/-!
# Runs of one DAG

A DAG by itself, with the certificate store behind it: every call of a method that
changes either is an event, and what the call did and returned is its output. A run
starts from a DAG with nothing in it over a store that may hold something already.
-/

namespace DagMempool

inductive DagEvent where
  | addCertificate (cert : Certificate)
  | setCommittedRound (round : UInt64)
  | pruneRound (round : UInt64)
  | pruneRoundsBefore (round : UInt64)
  | loadRound (round : UInt64)
  | causalHistory (cert : Certificate)

inductive DagOutput where
  | added (cert : Certificate) (result : Except GoError Unit)
  | committed (round : UInt64)
  | pruned (round : UInt64)
  | prunedBefore (round : UInt64)
  | loaded (round : UInt64) (result : Except GoError Unit)
  | history (cert : Certificate) (certs : List Certificate)

/-- A DAG and its store. -/
structure DagState (CS : Type) where
  dag : Dag
  certStore : CS

namespace DagState

variable {CS : Type} [CertificateStore CS]

def step (s : DagState CS) : DagEvent → DagState CS × List DagOutput
  | .addCertificate cert =>
    let added := s.dag.addCertificate s.certStore cert
    ({ dag := added.2.1, certStore := added.2.2 }, [.added cert added.1])
  | .setCommittedRound round =>
    ({ s with dag := s.dag.setCommittedRound round }, [.committed round])
  | .pruneRound round => ({ s with dag := s.dag.pruneRound round }, [.pruned round])
  | .pruneRoundsBefore round =>
    ({ s with dag := s.dag.pruneRoundsBefore round }, [.prunedBefore round])
  | .loadRound round =>
    let loaded := s.dag.loadRound s.certStore round
    ({ s with dag := loaded.2 }, [.loaded round loaded.1])
  | .causalHistory cert =>
    let history := s.dag.causalHistory s.certStore cert
    ({ s with dag := history.2 }, [.history cert history.1])

/-- `dag.New`, over a store with what it already holds. -/
def Fresh (stored : CS → Prop) (s : DagState CS) : Prop :=
  (∃ cfg, s.dag = .new cfg) ∧ stored s.certStore

/-- The states that runs of a DAG reach, with what its calls returned. -/
def Reach (stored : CS → Prop) (ok : DagState CS → List DagOutput → DagEvent → Prop) :
    DagState CS → List DagOutput → Prop :=
  Run.Reach (Fresh stored) step ok

end DagState

/-- The certificates whose additions returned no error. -/
def acceptedCertificates (log : List DagOutput) : List Certificate :=
  log.filterMap fun
    | .added cert (.ok ()) => some cert
    | _ => none

end DagMempool
