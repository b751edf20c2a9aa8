import DagMempool.Gc.Gc
import DagMempool.Network.Sync
import DagMempool.Primary.BatchFetcher
import DagMempool.Primary.Primary
import DagMempool.Worker.Pool

/-!
# The node

`Looseberry` puts the components together over one batch store, one certificate
store and one transaction index. Its handlers are the ones the message loop, the
timers and the callers of the mempool run, and each is one step: it runs to its
end, callbacks included, before the next one starts. What a handler sends or
returns is its list of outputs.

`Env` holds what a handler cannot choose: the clock, and the orders in which
iterations over maps happen to go.
-/

namespace DagMempool

/-- `Config`, as far as the components are configured from it. -/
structure Config [Crypto] where
  validatorIndex : UInt16
  signer : Signer
  minWorkers : Nat
  maxWorkers : Nat
  batchSize : Nat
  maxPendingTxs : Nat
  maxPendingBytes : Int64
  primary : PrimaryConfig
  syncBatchSize : UInt64
  gcDepth : UInt64
  recoverTxs : Bool
  maxUncommittedRounds : UInt64
  txValidator : Option TxValidator

structure CertifiedBatch where
  batch : Batch
  certificate : Certificate
  deriving DecidableEq

structure Looseberry (BS CS TI : Type) [Crypto] where
  cfg : Config
  validatorSet : SimpleValidatorSet
  batchStore : BS
  certStore : CS
  txIndex : TI
  dag : Dag
  flow : FlowController
  pool : Pool
  primary : Primary
  fetcher : BatchFetcher
  sync : SyncManager
  gc : GCManager
  orphanCerts : GoMap Hash Certificate
  startNanos : Int
  lastCommitNanos : Int
  lastCommittedRound : UInt64

/-- What a step finds rather than decides. A replay of orphans walks over the buffer
several times, so it has an order for each pass. -/
structure Env where
  now : Int
  votes : IterOrder Vote
  orphans : Nat → IterOrder Certificate
  requests : IterOrder PendingBatchRequest
  gc : GCOrders

inductive Output where
  | broadcastBatch (batch : Batch)
  | broadcastHeader (header : Header)
  | broadcastCertificate (cert : Certificate)
  | sendVote (target : UInt16) (vote : Vote)
  | sendBatchAck (target : UInt16) (ack : BatchAckMessage)
  | sendBatchRequest (target : UInt16) (req : BatchRequestMessage)
  | sendBatchResponse (target : UInt16) (resp : BatchResponseMessage)
  | sendSyncRequest (target : UInt16) (req : SyncRequest)
  | sendSyncResponse (target : UInt16) (resp : SyncResponse)
  | txResult (result : Except GoError Unit)
  | reaped (batches : List CertifiedBatch)
  | recovered (txs : List Transaction)

def orphanCertCap : Nat := 4096

namespace Looseberry

section

variable [Crypto] {BS CS TI : Type}

def peerValidatorIndices (vs : SimpleValidatorSet) (me : UInt16) : List UInt16 :=
  (vs.validators.map (·.index)).filter fun i => i != me

/-- `initializeComponents` and `startComponents`. `BatchBytes` is not set, so the
workers have no limit on the bytes of a batch, and the sync manager's back-off is
zero. -/
def start (cfg : Config) (vs : SimpleValidatorSet) (batchStore : BS) (certStore : CS)
    (txIndex : TI) (now : Int) : Looseberry BS CS TI :=
  let worker : WorkerConfig :=
    { batchSize := cfg.batchSize, batchBytes := 0, maxPendingTxs := cfg.maxPendingTxs
      maxPendingBytes := cfg.maxPendingBytes, ackTimeout := 30 * 10 ^ 9 }
  let pool : PoolConfig :=
    { minWorkers := cfg.minWorkers, maxWorkers := cfg.maxWorkers, worker }
  let primary := Primary.new cfg.validatorIndex cfg.signer cfg.primary vs
  { cfg, validatorSet := vs, batchStore, certStore, txIndex
    dag := .new { maxHistoryDepth := 1000, maxHistoryCacheSize := 1000 }
    flow := .new
      { maxUncommittedRounds := cfg.maxUncommittedRounds, maxPendingBatches := 1000
        maxPendingHeaders := 100 }
    pool := (Pool.new pool cfg.validatorIndex vs.quorum cfg.txValidator).start
    primary := { primary with running := true }
    fetcher := (BatchFetcher.new .default).updateValidators
      (peerValidatorIndices vs cfg.validatorIndex)
    sync := .new { syncBatchSize := cfg.syncBatchSize, initialBackoff := 0 } vs
    gc := .new { gcDepth := cfg.gcDepth, recoverUncommittedTxs := cfg.recoverTxs }
    orphanCerts := ∅, startNanos := now, lastCommitNanos := now, lastCommittedRound := 0 }

/-! ## Certificates -/

/-- What `onCertificateFormed` changes, and the certificates it broadcasts. -/
structure Formed where
  dag : Dag
  flow : FlowController
  certs : List Certificate

/-- The certificate callback: an error of the DAG is ignored, and buffered orphans
are not tried again. -/
def onCertificateFormed [CertificateStore CS] : CertSink Formed CS :=
  fun k certStore cert =>
    let added := k.dag.addCertificate certStore cert
    ({ dag := added.2.1, flow := k.flow.updateCurrentRound cert.round
       certs := k.certs ++ [cert] }, added.2.2)

/-- The node after the primary and its callback have run. -/
def withFormed (l : Looseberry BS CS TI) (primary : Primary) (certStore : CS) (k : Formed) :
    Looseberry BS CS TI × List Output :=
  ({ l with primary, certStore, dag := k.dag, flow := k.flow },
    k.certs.map .broadcastCertificate)

def bufferOrphanCert (l : Looseberry BS CS TI) (cert : Certificate) : Looseberry BS CS TI :=
  if orphanCertCap ≤ l.orphanCerts.len then l
  else if l.orphanCerts.has cert.digest then l
  else { l with orphanCerts := l.orphanCerts.set cert.digest cert }

/-- One turn of a replay: an orphan that is added leaves the buffer. -/
def replayOne [CertificateStore CS] (acc : Looseberry BS CS TI × Nat)
    (cert : Certificate) : Looseberry BS CS TI × Nat :=
  let added := acc.1.dag.addCertificate acc.1.certStore cert
  let l := { acc.1 with dag := added.2.1, certStore := added.2.2 }
  match added.1 with
  | .error _ => (l, acc.2)
  | .ok () => ({ l with orphanCerts := l.orphanCerts.del cert.digest }, acc.2 + 1)

/-- Passes over the buffer until one adds nothing. Every pass that adds something
shortens the buffer, so its length is fuel enough. -/
def replayOrphanCerts [CertificateStore CS] (order : Nat → IterOrder Certificate) :
    Nat → Looseberry BS CS TI → Looseberry BS CS TI
  | 0, l => l
  | fuel + 1, l =>
    let pass := ((order fuel).arrange l.orphanCerts.values).foldl replayOne (l, 0)
    if pass.2 = 0 then pass.1 else replayOrphanCerts order fuel pass.1

/-- What the answer of the DAG to a peer's certificate leads to. -/
def settleOrphans [CertificateStore CS] (l : Looseberry BS CS TI) (env : Env)
    (cert : Certificate) : Except GoError Unit → Looseberry BS CS TI
  | .error .missingParents => l.bufferOrphanCert cert
  | .error _ => l
  | .ok () => replayOrphanCerts env.orphans (l.orphanCerts.len + 1) l

/-- Whatever `HandleCertificate` answered, the certificate goes to the DAG. -/
def admitCertificate [CertificateStore CS] (l : Looseberry BS CS TI) (cert : Certificate) :
    Except GoError Unit × Looseberry BS CS TI :=
  let handled := l.primary.handleCertificate l.certStore cert
  let added := l.dag.addCertificate handled.2.2 cert
  (added.1, { l with primary := handled.2.1, certStore := added.2.2, dag := added.2.1 })

def handleCertificateMessage [CertificateStore CS] (l : Looseberry BS CS TI) (env : Env)
    (cert : Certificate) : Looseberry BS CS TI :=
  let admitted := l.admitCertificate cert
  let l := admitted.2.settleOrphans env cert admitted.1
  { l with flow := l.flow.updateCurrentRound cert.round }

/-! ## Votes and headers -/

def handleVoteMessage [CertificateStore CS] [SliceSort] (l : Looseberry BS CS TI)
    (env : Env) (vote : Vote) : Looseberry BS CS TI × List Output :=
  let handled := l.primary.handleVote l.certStore onCertificateFormed
    { dag := l.dag, flow := l.flow, certs := [] } vote env.votes env.now
  l.withFormed handled.2.1 handled.2.2.1 handled.2.2.2

def headerTick [CertificateStore CS] [SliceSort] (l : Looseberry BS CS TI) (env : Env) :
    Looseberry BS CS TI × List Output :=
  let created := l.primary.tryCreateHeader l.certStore onCertificateFormed
    { dag := l.dag, flow := l.flow, certs := [] } l.pool.hasBatchAckQuorum env.votes env.now
  let formed := l.withFormed created.2.1 created.2.2.1 created.2.2.2
  (formed.1, formed.2 ++ created.1.toList.map .broadcastHeader)

/-- `onBatchRequest`, for what the fetcher asked for. -/
def batchRequests (l : Looseberry BS CS TI) (requests : List BatchFetcher.Request) :
    List Output :=
  requests.map fun r =>
    .sendBatchRequest r.1 { batchDigest := r.2, requester := l.cfg.validatorIndex }

/-- `HandleHeader`, with the fetcher as the availability checker: for a header from
a peer, and again when its batches have arrived. -/
def deliverHeader [BatchStore BS] [CertificateStore CS] (l : Looseberry BS CS TI)
    (env : Env) (header : Header) : Looseberry BS CS TI × List Output :=
  let request := fun (state : BatchFetcher × List BatchFetcher.Request) (header : Header) =>
    let requested := state.1.requestBatchesForHeader l.batchStore header env.now
    (requested.1, requested.2.1, state.2 ++ requested.2.2)
  let handled := l.primary.handleHeader l.certStore request (l.fetcher, []) header
  let votes : List Output := match handled.1 with
    | .ok (some (vote, target)) => [.sendVote target vote]
    | _ => []
  ({ l with fetcher := handled.2.1 }, l.batchRequests handled.2.2 ++ votes)

/-- `onHeaderReady` for each header in turn. -/
def deliverHeaders [BatchStore BS] [CertificateStore CS] (l : Looseberry BS CS TI)
    (env : Env) : List Header → Looseberry BS CS TI × List Output
  | [] => (l, [])
  | header :: headers =>
    let first := l.deliverHeader env header
    let rest := first.1.deliverHeaders env headers
    (rest.1, first.2 ++ rest.2)

/-! ## Batches -/

/-- `NotifyBatchReceived`, with its callback. -/
def batchReceived [BatchStore BS] [CertificateStore CS] (l : Looseberry BS CS TI)
    (env : Env) (batch : Batch) : Looseberry BS CS TI × List Output :=
  let notified := l.fetcher.notifyBatchReceived batch
  { l with fetcher := notified.2 }.deliverHeaders env notified.1

/-- A batch is stored and its transactions are indexed; errors are ignored. -/
def storeBatch [BatchStore BS] [TxIndex TI] (l : Looseberry BS CS TI) (batch : Batch) :
    Looseberry BS CS TI :=
  { l with
    batchStore := (BatchStore.saveBatch l.batchStore batch).2
    txIndex := (TxIndex.addBatch l.txIndex batch).2 }

/-- The signed acknowledgment of a batch, unless signing fails. -/
def ackBatch (l : Looseberry BS CS TI) (batch : Batch) (sender : UInt16) : List Output :=
  let signBytes := batchAckSignBytes batch.digest l.cfg.validatorIndex batch.round
  match l.cfg.signer.sign signBytes with
  | .error _ => []
  | .ok signature =>
    [.sendBatchAck sender
      { batchDigest := batch.digest, validator := l.cfg.validatorIndex
        round := batch.round, signature }]

def handleBatchMessage [BatchStore BS] [CertificateStore CS] [TxIndex TI]
    (l : Looseberry BS CS TI) (env : Env) (batch : Batch) (sender : UInt16) :
    Looseberry BS CS TI × List Output :=
  let received := (l.storeBatch batch).batchReceived env batch
  (received.1, received.2 ++ l.ackBatch batch sender)

def handleBatchRequestMessage [BatchStore BS] (l : Looseberry BS CS TI)
    (req : BatchRequestMessage) : List Output :=
  [.sendBatchResponse req.requester
    { batch := (BatchStore.getBatch l.batchStore req.batchDigest).toOption
      sender := l.cfg.validatorIndex }]

/-- The node stores the batch, and the fetcher stores it once more. -/
def handleBatchResponseMessage [BatchStore BS] [CertificateStore CS] [TxIndex TI]
    (l : Looseberry BS CS TI) (env : Env) (resp : BatchResponseMessage) :
    Looseberry BS CS TI × List Output :=
  match resp.batch with
  | none => (l, [])
  | some batch =>
    let l := l.storeBatch batch
    { l with batchStore := (BatchStore.saveBatch l.batchStore batch).2 }.batchReceived
      env batch

def handleBatchAckMessage (l : Looseberry BS CS TI) (msg : BatchAckMessage) :
    Looseberry BS CS TI :=
  let signBytes := batchAckSignBytes msg.batchDigest msg.validator msg.round
  if l.validatorSet.verifySignature msg.validator signBytes msg.signature then
    { l with pool := l.pool.recordAck msg.batchDigest msg.validator }
  else l

/-- `onBatchCreated` for each batch: its digest is queued with the primary. -/
def queueBatches (p : Primary) (batches : List Batch) : Primary :=
  batches.foldl (fun p b => p.addBatchDigest b.getDigest) p

/-- The node after the pool has worked: stores and pool, then the callbacks. -/
def withPool (l : Looseberry BS CS TI) (made : List Batch × Pool × BS × TI) :
    Looseberry BS CS TI × List Output :=
  ({ l with
      pool := made.2.1, batchStore := made.2.2.1, txIndex := made.2.2.2
      primary := queueBatches l.primary made.1 },
    made.1.map .broadcastBatch)

def workerTick [BatchStore BS] [TxIndex TI] (l : Looseberry BS CS TI) (env : Env)
    (idx : Nat) : Looseberry BS CS TI × List Output :=
  l.withPool (l.pool.tick idx l.batchStore l.txIndex env.now)

def scaleDown [BatchStore BS] [TxIndex TI] (l : Looseberry BS CS TI) (env : Env) :
    Looseberry BS CS TI × List Output :=
  l.withPool (l.pool.scaleDown l.batchStore l.txIndex env.now)

/-- The pool is stopped and started again, with fresh workers. -/
def flush [BatchStore BS] [TxIndex TI] (l : Looseberry BS CS TI) (env : Env) :
    Looseberry BS CS TI × List Output :=
  let stopped := l.withPool (l.pool.stop l.batchStore l.txIndex env.now)
  ({ stopped.1 with pool := stopped.1.pool.start }, stopped.2)

/-! ## Synchronisation -/

def handleSyncRequest [BatchStore BS] [CertificateStore CS] [SliceSort]
    (l : Looseberry BS CS TI) (env : Env) (req : SyncRequest) : List Output :=
  match l.sync.handleSyncRequest l.dag l.batchStore l.certStore env.gc.certs req with
  | none => []
  | some resp => [.sendSyncResponse req.requester resp]

/-- The batches of a response are saved, and its certificates that verify are to be
delivered. -/
def takeSyncResponse [BatchStore BS] (l : Looseberry BS CS TI) (resp : SyncResponse)
    (sender : UInt16) : List Certificate × Looseberry BS CS TI :=
  let handled := l.sync.handleSyncResponse l.batchStore resp sender
  (handled.1, { l with sync := handled.2.1, batchStore := handled.2.2 })

def handleSyncResponse [BatchStore BS] [CertificateStore CS] (l : Looseberry BS CS TI)
    (env : Env) (resp : SyncResponse) (sender : UInt16) : Looseberry BS CS TI :=
  let taken := l.takeSyncResponse resp sender
  taken.1.foldl (fun l cert => l.handleCertificateMessage env cert) taken.2

def requestPeerCatchUp (l : Looseberry BS CS TI) (env : Env) (peer : UInt16) :
    Looseberry BS CS TI × List Output :=
  let requested := l.sync.requestPeerCatchUp peer l.cfg.validatorIndex env.now
  ({ l with sync := requested.2 }, requested.1.toList.map (.sendSyncRequest peer))

def catchUpPeerCerts [CertificateStore CS] [SliceSort] (l : Looseberry BS CS TI)
    (env : Env) : List Output :=
  match l.dag.getOrderedCertificates l.certStore env.gc.certs 0 l.dag.highestRound with
  | none => []
  | some certs => certs.map .broadcastCertificate

/-! ## The mempool -/

def addTx [TxIndex TI] (l : Looseberry BS CS TI) (tx : Transaction) :
    Except GoError Unit × Looseberry BS CS TI :=
  if l.flow.paused then (.error .flowControlPaused, l)
  else
    let added := l.pool.addTx l.txIndex tx
    (added.1, { l with pool := added.2 })

/-- The loops of `ReapCertifiedBatches` over the references of the certificates, with
the digests seen, the bytes so far and the result so far. -/
def reapLoop [BatchStore BS] (batchStore : BS) (maxBytes : Int64) :
    List (Certificate × BatchDigest) → List Hash → Int64 → List CertifiedBatch →
      List CertifiedBatch
  | [], _, _, result => result
  | (cert, ref) :: refs, seen, totalBytes, result =>
    if seen.contains ref.digest then
      reapLoop batchStore maxBytes refs seen totalBytes result
    else match BatchStore.getBatch batchStore ref.digest with
      | .error _ => reapLoop batchStore maxBytes refs seen totalBytes result
      | .ok batch =>
        if maxBytes < totalBytes + batch.size ∧ 0 < result.length then result
        else
          reapLoop batchStore maxBytes refs (ref.digest :: seen)
            (totalBytes + batch.size) (result ++ [{ batch, certificate := cert }])

/-- `none` where collecting the certificates does not end. -/
def reapCertifiedBatches [BatchStore BS] [CertificateStore CS] [SliceSort]
    (l : Looseberry BS CS TI) (env : Env) (maxBytes : Int64) :
    Option (List CertifiedBatch) :=
  let currentRound := l.dag.highestRound
  if l.dag.hasCommitted && decide (currentRound ≤ l.dag.committedRound) then some []
  else
    let fromRound := if l.dag.hasCommitted then l.dag.committedRound + 1 else 0
    match l.dag.getOrderedCertificates l.certStore env.gc.certs fromRound currentRound with
    | none => none
    | some certs =>
      let refs := certs.flatMap fun cert => cert.header.batchRefs.map fun ref => (cert, ref)
      some (reapLoop l.batchStore maxBytes refs [] 0 [])

def gcTargets (l : Looseberry BS CS TI) : GCTargets BS CS TI Pool :=
  { dag := l.dag, batchStore := l.batchStore, certStore := l.certStore
    txIndex := l.txIndex, sink := l.pool }

/-- `onTxRecovered`, set only when the configuration asks for recovery. -/
def txRecovery [TxIndex TI] (l : Looseberry BS CS TI) : TxRecovery TI Pool :=
  if l.cfg.recoverTxs then some fun pool txIndex txs => pool.addTxs txIndex txs else none

/-- The node after a collection, and what was recovered. -/
def withCollected (l : Looseberry BS CS TI)
    (collected : List Transaction × GCManager × GCTargets BS CS TI Pool) :
    Looseberry BS CS TI × List Output :=
  let t := collected.2.2
  ({ l with
      gc := collected.2.1, dag := t.dag, batchStore := t.batchStore
      certStore := t.certStore, txIndex := t.txIndex, pool := t.sink },
    if collected.1.isEmpty then [] else [.recovered collected.1])

/-- The DAG and the flow controller are told the round as it is; only the collector
keeps the highest. -/
def notifyCommitted [BatchStore BS] [CertificateStore CS] [TxIndex TI]
    (l : Looseberry BS CS TI) (env : Env) (round : UInt64) :
    Looseberry BS CS TI × List Output :=
  let l :=
    { l with
      dag := l.dag.setCommittedRound round, flow := l.flow.updateCommittedRound round }
  let done := l.withCollected
    (l.gc.notifyCommitted l.gcTargets env.gc l.txRecovery round)
  if done.1.lastCommittedRound < round then
    ({ done.1 with lastCommittedRound := round, lastCommitNanos := env.now }, done.2)
  else done

/-- A tick of the background collection. -/
def gcTick [BatchStore BS] [CertificateStore CS] [TxIndex TI] (l : Looseberry BS CS TI)
    (env : Env) : Looseberry BS CS TI × List Output :=
  l.withCollected (l.gc.collect l.gcTargets env.gc l.txRecovery)

def updateValidatorSet (l : Looseberry BS CS TI) (vs : SimpleValidatorSet) :
    Looseberry BS CS TI :=
  { l with
    validatorSet := vs
    pool := l.pool.updateQuorum vs.quorum
    primary := { l.primary with validatorSet := vs }
    sync := { l.sync with validatorSet := vs }
    fetcher := l.fetcher.updateValidators (peerValidatorIndices vs l.cfg.validatorIndex) }

/-! ## Timers -/

def fetcherTick (l : Looseberry BS CS TI) (env : Env) : Looseberry BS CS TI × List Output :=
  let cleaned := l.fetcher.cleanupTimedOutRequests env.requests env.now
  ({ l with fetcher := cleaned.1.cleanupTimedOutHeaders env.now },
    l.batchRequests cleaned.2)

/-- Batches without their acks and headers without their votes are sent again when
nothing has been committed for three seconds, after a start-up time of fifteen. -/
def rebroadcastIfStuck (l : Looseberry BS CS TI) (env : Env) : List Output :=
  if env.now - l.startNanos < 15 * 10 ^ 9 ∨ env.now - l.lastCommitNanos < 3 * 10 ^ 9 then []
  else
    (l.pool.pendingBatchesBelowQuorum (2 * 10 ^ 9) env.now).map .broadcastBatch ++
      (l.primary.voteTracker.pendingHeadersOlderThan (2 * 10 ^ 9) env.now).map
        .broadcastHeader

/-! ## Stopping, and starting again -/

/-- `Stop`: the workers make last batches of what they have pending, and then the stores are
closed. -/
def stop [BatchStore BS] [TxIndex TI] [Closer BS] [Closer CS] [Closer TI]
    (l : Looseberry BS CS TI) (now : Int) : Looseberry BS CS TI :=
  let stopped := (l.withPool (l.pool.stop l.batchStore l.txIndex now)).1
  { stopped with
    primary := { stopped.primary with running := false }
    batchStore := (Closer.close stopped.batchStore).2
    certStore := (Closer.close stopped.certStore).2
    txIndex := (Closer.close stopped.txIndex).2 }

/-- A new instance over the stores that a stopped one has left. -/
def restart [Reopens BS] [Reopens CS] [Reopens TI] (l : Looseberry BS CS TI) (cfg : Config)
    (vs : SimpleValidatorSet) (now : Int) : Looseberry BS CS TI :=
  start cfg vs (Reopens.reopen l.batchStore) (Reopens.reopen l.certStore)
    (Reopens.reopen l.txIndex) now

end

end Looseberry

end DagMempool
