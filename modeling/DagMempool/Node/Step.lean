import DagMempool.Lib.Run
import DagMempool.Node.Looseberry

/-!
# Steps and runs of a node

One constructor for everything that can happen to a running node: a message of
each kind, a timer of each loop, a call of the mempool's interface. Messages
carry whatever a peer chose to send. A run is any sequence of these.
-/

namespace DagMempool

inductive Event where
  | addTx (tx : Transaction)
  | reap (maxBytes : Int64)
  | notifyCommitted (round : UInt64)
  | updateValidatorSet (vs : SimpleValidatorSet)
  | flush
  | catchUpPeerCerts
  | requestPeerCatchUp (peer : UInt16)
  | batchMessage (batch : Batch) (sender : UInt16)
  | headerMessage (header : Header)
  | voteMessage (vote : Vote)
  | certificateMessage (cert : Certificate)
  | batchAckMessage (msg : BatchAckMessage)
  | batchRequestMessage (req : BatchRequestMessage)
  | batchResponseMessage (resp : BatchResponseMessage)
  | syncRequest (req : SyncRequest)
  | syncResponse (resp : SyncResponse) (sender : UInt16)
  | workerTick (idx : Nat)
  | scaleUp
  | scaleDown
  | ackCleanupTick
  | headerTick
  | voteCleanupTick
  | fetcherTick
  | gcTick
  | rebroadcastTick

namespace Looseberry

variable [Crypto] [SliceSort] {BS CS TI : Type}
variable [BatchStore BS] [CertificateStore CS] [TxIndex TI]

def step (l : Looseberry BS CS TI) (ev : Event × Env) : Looseberry BS CS TI × List Output :=
  let env := ev.2
  match ev.1 with
  | .addTx tx => ((l.addTx tx).2, [.txResult (l.addTx tx).1])
  | .reap maxBytes => (l, (l.reapCertifiedBatches env maxBytes).toList.map .reaped)
  | .notifyCommitted round => l.notifyCommitted env round
  | .updateValidatorSet vs => (l.updateValidatorSet vs, [])
  | .flush => l.flush env
  | .catchUpPeerCerts => (l, l.catchUpPeerCerts env)
  | .requestPeerCatchUp peer => l.requestPeerCatchUp env peer
  | .batchMessage batch sender => l.handleBatchMessage env batch sender
  | .headerMessage header => l.deliverHeader env header
  | .voteMessage vote => l.handleVoteMessage env vote
  | .certificateMessage cert => (l.handleCertificateMessage env cert, [])
  | .batchAckMessage msg => (l.handleBatchAckMessage msg, [])
  | .batchRequestMessage req => (l, l.handleBatchRequestMessage req)
  | .batchResponseMessage resp => l.handleBatchResponseMessage env resp
  | .syncRequest req => (l, l.handleSyncRequest env req)
  | .syncResponse resp sender => (l.handleSyncResponse env resp sender, [])
  | .workerTick idx => l.workerTick env idx
  | .scaleUp => ({ l with pool := l.pool.scaleUp }, [])
  | .scaleDown => l.scaleDown env
  | .ackCleanupTick => ({ l with pool := l.pool.removeTimedOutAcks env.now }, [])
  | .headerTick => l.headerTick env
  | .voteCleanupTick => ({ l with primary := l.primary.cleanupPendingVotes env.now }, [])
  | .fetcherTick => l.fetcherTick env
  | .gcTick => l.gcTick env
  | .rebroadcastTick => (l, l.rebroadcastIfStuck env)

/-- A node that has just been started over some stores. -/
def Started (l : Looseberry BS CS TI) : Prop :=
  ∃ cfg vs batchStore certStore txIndex now,
    l = start cfg vs batchStore certStore txIndex now

/-- The states a node reaches from a start that meets one condition, and what it
output on the way, in runs all of whose steps meet another. -/
abbrev Reach (init : Looseberry BS CS TI → Prop)
    (ok : Looseberry BS CS TI → List Output → Event × Env → Prop) :
    Looseberry BS CS TI → List Output → Prop :=
  Run.Reach (fun l => Started l ∧ init l) step ok

/-- What happened to a node, oldest first: each event with the state it found. -/
abbrev Past (BS CS TI : Type) := List (Looseberry BS CS TI × (Event × Env))

/-- As `Reach`, with the history of the run in place of its outputs. -/
abbrev PastReach (init : Looseberry BS CS TI → Prop)
    (ok : Looseberry BS CS TI → Past BS CS TI → Event × Env → Prop) :
    Looseberry BS CS TI → Past BS CS TI → Prop :=
  Run.Reach (fun l => Started l ∧ init l) (Run.history step) ok

end Looseberry

end DagMempool
