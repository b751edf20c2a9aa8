import DagMempool.Dag.Step
import DagMempool.Network.Polling

/-!
# Two nodes that sync

A requester and a responder, and every message between them. Whatever was sent once may
arrive at any later time, any number of times or never, so the messages sent are kept in
two lists and an event picks one of them. The requester sends what its callers and its
loop make it send, for any rounds; the responder serves it from a DAG to which anything a
DAG can go through happens in between.

At the end is one requester with all its peers: any of them may be asked for anything, and
any of them may answer at any time, with whatever response it likes.
-/

namespace DagMempool

structure SyncLink (BS CS : Type) where
  requester : SyncManager
  /-- The batches of the requester. -/
  batches : BS
  responder : SyncManager
  dag : DagState CS
  /-- The batches of the responder. -/
  batchStore : BS
  requests : List SyncRequest
  responses : List SyncResponse

inductive LinkEvent where
  | requestSync (fromRound toRound : UInt64) (env : SyncEnv)
  | requestPeerCatchUp (env : SyncEnv)
  | catchUp (targetRound : UInt64) (env : SyncEnv)
  | checkAndSync (policy : SyncPolicy) (env : SyncEnv)
  | retry (policy : SyncPolicy) (env : SyncEnv) (order : IterOrder UInt16)
  | serve (i : Nat) (order : IterOrder Certificate)
  | receive (i : Nat)
  | dagEvent (e : DagEvent)

namespace SyncLink

section

variable {BS CS : Type} [BatchStore BS] [CertificateStore CS]

/-- What the requester sends, as far as it is for this responder. -/
def send (s : SyncLink BS CS) (peer : UInt16) (requester : SyncManager) (sent : SentRequests) :
    SyncLink BS CS :=
  { s with
    requester
    requests := s.requests ++ (sent.filter fun m => decide (m.1 = peer)).map (·.2) }

/-- A request arrives at the responder. -/
def serve [SliceSort] (s : SyncLink BS CS) (order : IterOrder Certificate) (req : SyncRequest) :
    SyncLink BS CS × List SyncResponse :=
  match s.responder.handleSyncRequest s.dag.dag s.batchStore s.dag.certStore order req with
  | none => (s, [])
  | some resp => ({ s with responses := s.responses ++ [resp] }, [resp])

/-- A response arrives at the requester. -/
def receive [Crypto] (s : SyncLink BS CS) (peer : UInt16) (resp : SyncResponse) :
    SyncLink BS CS :=
  let handled := s.requester.handleSyncResponse s.batches resp peer
  { s with requester := handled.2.1, batches := handled.2.2 }

/-- One event, with the index of the responder; the output is what is sent back. -/
def step [Crypto] [SliceSort] (peer : UInt16) (s : SyncLink BS CS) :
    LinkEvent → SyncLink BS CS × List SyncResponse
  | .requestSync fromRound toRound env =>
    let requested := s.requester.requestSync peer fromRound toRound env.me env.now
    (s.send peer requested.2 [(peer, requested.1)], [])
  | .requestPeerCatchUp env =>
    let requested := s.requester.requestPeerCatchUp peer env.me env.now
    (s.send peer requested.2 (requested.1.toList.map fun req => (peer, req)), [])
  | .catchUp targetRound env =>
    let caught := s.requester.catchUp env targetRound
    (s.send peer caught.2.1 caught.2.2, [])
  | .checkAndSync policy env =>
    let polled := s.requester.checkAndSync policy env
    (s.send peer polled.1 polled.2, [])
  | .retry policy env order =>
    let retried := s.requester.cleanupTimedOutRequests policy env order
    (s.send peer retried.1 retried.2, [])
  | .serve i order =>
    match s.requests[i]? with
    | none => (s, [])
    | some req => s.serve order req
  | .receive i =>
    match s.responses[i]? with
    | none => (s, [])
    | some resp => (s.receive peer resp, [])
  | .dagEvent e => ({ s with dag := (s.dag.step e).1 }, [])

/-- Nothing was sent yet, and nothing is recorded. A batch size below one does not pass
`Validate`. -/
structure Fresh (s : SyncLink BS CS) : Prop where
  size : 1 ≤ s.responder.cfg.syncBatchSize
  peerHighest : s.requester.peerHighest = ∅
  requests : s.requests = []
  responses : s.responses = []

def Reach [Crypto] [SliceSort] (peer : UInt16)
    (ok : SyncLink BS CS → List SyncResponse → LinkEvent → Prop) :
    SyncLink BS CS → List SyncResponse → Prop :=
  Run.Reach Fresh (step peer) ok

end

end SyncLink

/-! ## All the peers -/

inductive SyncCall where
  | requestSync (validator : UInt16) (fromRound toRound : UInt64)
  | requestPeerCatchUp (peer : UInt16)
  | catchUp (targetRound : UInt64)
  | checkAndSync (policy : SyncPolicy)
  | retry (policy : SyncPolicy) (order : IterOrder UInt16)
  | response (resp : SyncResponse) (sender : UInt16)

/-- A call that was made: what it found, what the network took, and the manager after it. -/
structure SyncCalled where
  env : SyncEnv
  sent : SentRequests
  after : SyncManager

namespace SyncManager

variable [Crypto] {BS : Type} [BatchStore BS]

def call (s : SyncManager) (batchStore : BS) (env : SyncEnv) :
    SyncCall → SyncManager × BS × SentRequests
  | .requestSync validator fromRound toRound =>
    let requested := s.requestSync validator fromRound toRound env.me env.now
    (requested.2, batchStore,
      if env.reachable validator then [(validator, requested.1)] else [])
  | .requestPeerCatchUp peer =>
    let requested := s.requestPeerCatchUp peer env.me env.now
    (requested.2, batchStore,
      if env.reachable peer then requested.1.toList.map fun req => (peer, req) else [])
  | .catchUp targetRound =>
    let caught := s.catchUp env targetRound
    (caught.2.1, batchStore, caught.2.2)
  | .checkAndSync policy =>
    let polled := s.checkAndSync policy env
    (polled.1, batchStore, polled.2)
  | .retry policy order =>
    let retried := s.cleanupTimedOutRequests policy env order
    (retried.1, batchStore, retried.2)
  | .response resp sender =>
    let handled := s.handleSyncResponse batchStore resp sender
    (handled.2.1, handled.2.2, [])

end SyncManager

end DagMempool
