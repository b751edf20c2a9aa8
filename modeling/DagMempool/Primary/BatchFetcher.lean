import DagMempool.Store.Store

/-!
# The batch fetcher

Headers whose batches are not all here wait in `pendingHeaders` until they are.
A header is handed back once the last batch it misses is reported; requests that
go unanswered are repeated with another validator, and given up after
`maxRetries`. What the fetcher sends is returned as a list of the validators
asked and the digests asked for, in the order they are sent.
-/

namespace DagMempool

structure BatchFetcherConfig where
  requestTimeout : Int
  maxRetries : Nat
  maxPendingHeaders : Nat

/-- `DefaultBatchFetcherConfig`; times are in nanoseconds. -/
def BatchFetcherConfig.default : BatchFetcherConfig :=
  { requestTimeout := 10 * 10 ^ 9, maxRetries := 3, maxPendingHeaders := 100 }

structure PendingBatchRequest where
  digest : Hash
  requestAt : Int
  retries : Nat
  validator : UInt16

/-- `pendingHeaderEntry`; the set of missing batches is a map to `Unit`. -/
structure PendingHeaderEntry where
  header : Header
  missingBatch : GoMap Hash Unit
  createdAt : Int

structure BatchFetcher where
  cfg : BatchFetcherConfig
  pendingHeaders : GoMap Hash PendingHeaderEntry
  pendingRequests : GoMap Hash PendingBatchRequest
  batchToHeaders : GoMap Hash (List Hash)
  validators : List UInt16

namespace BatchFetcher

def new (cfg : BatchFetcherConfig) : BatchFetcher :=
  { cfg, pendingHeaders := ∅, pendingRequests := ∅, batchToHeaders := ∅, validators := [] }

/-- A request for a batch, to a validator. -/
abbrev Request := UInt16 × Hash

def updateValidators (bf : BatchFetcher) (validators : List UInt16) : BatchFetcher :=
  { bf with validators }

def requestBatch (bf : BatchFetcher) (digest : Hash) (preferredValidator : UInt16)
    (now : Int) : BatchFetcher × List Request :=
  if bf.pendingRequests.has digest then (bf, [])
  else
    let request := { digest, requestAt := now, retries := 0, validator := preferredValidator }
    ({ bf with pendingRequests := bf.pendingRequests.set digest request },
      [(preferredValidator, digest)])

/-- `requestBatch` for each digest in turn. -/
def requestAll (bf : BatchFetcher) (preferredValidator : UInt16) (now : Int) :
    List Hash → BatchFetcher × List Request
  | [] => (bf, [])
  | digest :: digests =>
    let first := bf.requestBatch digest preferredValidator now
    let rest := requestAll first.1 preferredValidator now digests
    (rest.1, first.2 ++ rest.2)

section

variable {BS : Type} [BatchStore BS]

/-- The digests a header refers to that are not stored, in the order of the
references and as often as they occur there. -/
def missingBatches (batchStore : BS) (header : Header) : List Hash :=
  (header.batchRefs.map (·.digest)).filter fun digest =>
    !BatchStore.hasBatch batchStore digest

/-- `true` if every batch of the header is here. Otherwise the header waits, unless
too many do already. -/
def requestBatchesForHeader (bf : BatchFetcher) (batchStore : BS) (header : Header)
    (now : Int) : Bool × BatchFetcher × List Request :=
  let missing := missingBatches batchStore header
  if missing.isEmpty then (true, bf, [])
  else if bf.cfg.maxPendingHeaders ≤ bf.pendingHeaders.len then (false, bf, [])
  else
    let entry : PendingHeaderEntry :=
      { header, missingBatch := missing.foldl (fun m d => m.set d ()) ∅, createdAt := now }
    let bf :=
      { bf with
        pendingHeaders := bf.pendingHeaders.set header.digest entry
        batchToHeaders := missing.foldl (fun m d =>
          m.set d ((m.get d).getD [] ++ [header.digest])) bf.batchToHeaders }
    (false, bf.requestAll header.author now missing)

end

/-- One turn of the loop over the headers that waited for a batch: the header is
ready when it was the last one missing. -/
def batchArrived (batchDigest : Hash) (acc : GoMap Hash PendingHeaderEntry × List Header)
    (headerDigest : Hash) : GoMap Hash PendingHeaderEntry × List Header :=
  match acc.1.get headerDigest with
  | none => acc
  | some entry =>
    let missingBatch := entry.missingBatch.del batchDigest
    if missingBatch.len = 0 then (acc.1.del headerDigest, acc.2 ++ [entry.header])
    else (acc.1.set headerDigest { entry with missingBatch }, acc.2)

/-- The headers that became ready are returned for the callback. -/
def notifyBatchReceived (bf : BatchFetcher) (batch : Batch) : List Header × BatchFetcher :=
  let headerDigests := (bf.batchToHeaders.get batch.digest).getD []
  let arrived := headerDigests.foldl (batchArrived batch.digest) (bf.pendingHeaders, [])
  (arrived.2,
    { bf with
      pendingRequests := bf.pendingRequests.del batch.digest
      batchToHeaders := bf.batchToHeaders.del batch.digest
      pendingHeaders := arrived.1 })

/-- A batch that a peer has is stored, whatever the store answers, and then reported. One that
it has not is waited for. -/
def handleBatchResponse {BS : Type} [BatchStore BS] (bf : BatchFetcher) (batchStore : BS)
    (batch : Option Batch) (found : Bool) : List Header × BatchFetcher × BS :=
  match batch with
  | none => ([], bf, batchStore)
  | some batch =>
    if !found then ([], bf, batchStore)
    else
      let notified := bf.notifyBatchReceived batch
      (notified.1, notified.2, (BatchStore.saveBatch batchStore batch).2)

/-- Another validator than the one asked before, the first there is. -/
def nextValidator (bf : BatchFetcher) (req : PendingBatchRequest) : UInt16 :=
  (bf.validators.find? fun v => v != req.validator).getD req.validator

def retryRequest (bf : BatchFetcher) (req : PendingBatchRequest) :
    BatchFetcher × List Request :=
  if bf.validators.isEmpty then (bf, [])
  else
    let next := bf.nextValidator req
    let pendingRequests := match bf.pendingRequests.get req.digest with
      | none => bf.pendingRequests
      | some entry => bf.pendingRequests.set req.digest { entry with validator := next }
    ({ bf with pendingRequests }, [(next, req.digest)])

def retryAll (bf : BatchFetcher) : List PendingBatchRequest → BatchFetcher × List Request
  | [] => (bf, [])
  | req :: reqs =>
    let first := bf.retryRequest req
    let rest := retryAll first.1 reqs
    (rest.1, first.2 ++ rest.2)

def cleanupFailedBatchHeaders (bf : BatchFetcher) (failedBatches : List Hash) : BatchFetcher :=
  let headers := failedBatches.flatMap fun d => (bf.batchToHeaders.get d).getD []
  { bf with
    batchToHeaders := bf.batchToHeaders.delAll failedBatches
    pendingHeaders := bf.pendingHeaders.delAll headers }

def cleanupTimedOutRequests (bf : BatchFetcher) (order : IterOrder PendingBatchRequest)
    (now : Int) : BatchFetcher × List Request :=
  let late (req : PendingBatchRequest) := decide (req.requestAt < now - bf.cfg.requestTimeout)
  let timedOut := (order.arrange bf.pendingRequests.values).filter late
  let toRetry := timedOut.filter fun req => decide (req.retries < bf.cfg.maxRetries)
  let toRemove := (timedOut.filter fun req => !decide (req.retries < bf.cfg.maxRetries)).map
    (·.digest)
  let renewed := toRetry.map fun req =>
    { req with retries := req.retries + 1, requestAt := now }
  let pendingRequests := renewed.foldl (fun m req => m.set req.digest req) bf.pendingRequests
  let bf := { bf with pendingRequests := pendingRequests.delAll toRemove }
  let retried := bf.retryAll renewed
  (retried.1.cleanupFailedBatchHeaders toRemove, retried.2)

def cleanupTimedOutHeaders (bf : BatchFetcher) (now : Int) : BatchFetcher :=
  let pendingHeaders := bf.pendingHeaders.filter fun _ entry =>
    !decide (entry.createdAt < now - 3 * bf.cfg.requestTimeout)
  { bf with pendingHeaders }

end BatchFetcher

end DagMempool
