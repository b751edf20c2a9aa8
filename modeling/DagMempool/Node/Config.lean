import DagMempool.Node.Looseberry

/-!
# The configuration of a node

What a user sets, the checks that `New` makes of it, and what of it the components are
created with. Settings that no check and no modelled component reads are not here: where
data is stored, how often the scaler looks and how long it waits.

A count is an `int` in the source and a number of any size here. The thresholds of the
scaler are only compared with each other, so they may be of any type with an order.
-/

namespace DagMempool

/-- `WorkerConfig` of the node. -/
structure WorkerOptions (R : Type) where
  minWorkers : Int
  maxWorkers : Int
  batchSize : Int
  batchTimeout : Int
  maxBatchBytes : Int64
  maxPendingTxs : Int
  maxPendingBytes : Int64
  scaleUpThreshold : R
  scaleDownThreshold : R

/-- `PrimaryConfig` of the node. -/
structure PrimaryOptions where
  headerTimeout : Int
  maxBatchesPerHeader : Int
  maxRoundGap : UInt64
  voteTimeout : Int
  allowEmptyHeaders : Bool

structure SyncOptions where
  syncInterval : Int
  syncThreshold : UInt64
  syncBatchSize : Int
  syncTimeout : Int

structure GCOptions where
  gcDepth : Int
  recoverTxs : Bool

structure FlowControlOptions where
  maxUncommittedRounds : Int

/-- `Config` as the user gives it. -/
structure Options (R : Type) [Crypto] where
  validatorIndex : UInt16
  signer : Signer
  txValidator : Option TxValidator
  worker : WorkerOptions R
  primary : PrimaryOptions
  sync : SyncOptions
  gc : GCOptions
  flowControl : FlowControlOptions

/-! ## Defaults -/

def milliseconds (n : Int) : Int := n * 10 ^ 6

def seconds (n : Int) : Int := n * 10 ^ 9

/-- `DefaultWorkerConfig`, with the two thresholds as fractions. -/
def WorkerOptions.default : WorkerOptions Rat :=
  { minWorkers := 1, maxWorkers := 8, batchSize := 500, batchTimeout := milliseconds 100
    maxBatchBytes := 512 * 1024, maxPendingTxs := 10000, maxPendingBytes := 50 * 1024 * 1024
    scaleUpThreshold := 4 / 5, scaleDownThreshold := 1 / 5 }

def PrimaryOptions.default : PrimaryOptions :=
  { headerTimeout := milliseconds 500, maxBatchesPerHeader := 100, maxRoundGap := 10
    voteTimeout := seconds 30, allowEmptyHeaders := true }

def SyncOptions.default : SyncOptions :=
  { syncInterval := seconds 10, syncThreshold := 5, syncBatchSize := 100
    syncTimeout := seconds 30 }

def GCOptions.default : GCOptions := { gcDepth := 50, recoverTxs := true }

def FlowControlOptions.default : FlowControlOptions := { maxUncommittedRounds := 100 }

/-- `DefaultConfig`, with an identity. -/
def Options.default [Crypto] (validatorIndex : UInt16) (signer : Signer)
    (txValidator : Option TxValidator) : Options Rat :=
  { validatorIndex, signer, txValidator, worker := .default, primary := .default
    sync := .default, gc := .default, flowControl := .default }

/-! ## Validation -/

def checkOption (ok : Prop) [Decidable ok] (text : String) : Except String Unit :=
  if ok then .ok () else .error text

def atLeastOne (field : String) (value : Int) : Except String Unit :=
  checkOption (1 ≤ value) (field ++ " must be at least 1")

def positive (field : String) (value : Int) : Except String Unit :=
  checkOption (0 < value) (field ++ " must be positive")

def WorkerOptions.validate {R : Type} [LE R] [DecidableLE R] (c : WorkerOptions R) :
    Except String Unit := do
  atLeastOne "min_workers" c.minWorkers
  checkOption (c.minWorkers ≤ c.maxWorkers) "max_workers must be >= min_workers"
  atLeastOne "batch_size" c.batchSize
  positive "batch_timeout" c.batchTimeout
  atLeastOne "max_batch_bytes" c.maxBatchBytes.toInt
  atLeastOne "max_pending_txs" c.maxPendingTxs
  atLeastOne "max_pending_bytes" c.maxPendingBytes.toInt
  checkOption (¬ c.scaleUpThreshold ≤ c.scaleDownThreshold)
    "scale_up_threshold must be > scale_down_threshold"

def PrimaryOptions.validate (c : PrimaryOptions) : Except String Unit := do
  positive "header_timeout" c.headerTimeout
  atLeastOne "max_batches_per_header" c.maxBatchesPerHeader
  atLeastOne "max_round_gap" c.maxRoundGap.toNat
  positive "vote_timeout" c.voteTimeout

def SyncOptions.validate (c : SyncOptions) : Except String Unit := do
  positive "sync_interval" c.syncInterval
  atLeastOne "sync_threshold" c.syncThreshold.toNat
  atLeastOne "sync_batch_size" c.syncBatchSize
  positive "sync_timeout" c.syncTimeout

def GCOptions.validate (c : GCOptions) : Except String Unit :=
  atLeastOne "gc_depth" c.gcDepth

def FlowControlOptions.validate (c : FlowControlOptions) : Except String Unit :=
  atLeastOne "max_uncommitted_rounds" c.maxUncommittedRounds

/-- An error of one part, with the part named. -/
def inPart (part : String) (checked : Except String Unit) : Except String Unit :=
  checked.mapError (part ++ " config: " ++ ·)

namespace Options

variable [Crypto] {R : Type}

def validate [LE R] [DecidableLE R] (c : Options R) : Except String Unit := do
  inPart "worker" c.worker.validate
  inPart "primary" c.primary.validate
  inPart "sync" c.sync.validate
  inPart "gc" c.gc.validate
  inPart "flow control" c.flowControl.validate

/-- What `initializeComponents` takes of the configuration. -/
def toConfig (c : Options R) : Config :=
  { validatorIndex := c.validatorIndex, signer := c.signer
    minWorkers := c.worker.minWorkers.toNat, maxWorkers := c.worker.maxWorkers.toNat
    batchSize := c.worker.batchSize.toNat, maxPendingTxs := c.worker.maxPendingTxs.toNat
    maxPendingBytes := c.worker.maxPendingBytes
    primary :=
      { maxBatchesPerHeader := c.primary.maxBatchesPerHeader.toNat
        voteTimeout := c.primary.voteTimeout, maxRoundGap := c.primary.maxRoundGap
        allowEmptyHeaders := c.primary.allowEmptyHeaders }
    syncBatchSize := .ofInt c.sync.syncBatchSize, gcDepth := .ofInt c.gc.gcDepth
    recoverTxs := c.gc.recoverTxs
    maxUncommittedRounds := .ofInt c.flowControl.maxUncommittedRounds
    txValidator := c.txValidator }

/-- `New`: the instance is created for a configuration that passes. -/
def new [LE R] [DecidableLE R] (c : Options R) : Except String Config :=
  match c.validate with
  | .error cause => .error ("invalid config: " ++ cause)
  | .ok () => .ok c.toConfig

end Options

/-! ## What passes -/

theorem checkOption_eq_ok {ok : Prop} [Decidable ok] {text : String} :
    checkOption ok text = .ok () ↔ ok := by
  unfold checkOption
  split
  · next h => simp [h]
  · next h => simp [h]

theorem inPart_eq_ok {part : String} {checked : Except String Unit} :
    inPart part checked = .ok () ↔ checked = .ok () := by
  cases checked with
  | error | ok => simp [inPart, Except.mapError]

theorem check_bind_eq_ok {checked rest : Except String Unit} :
    (checked >>= fun _ => rest) = .ok () ↔ checked = .ok () ∧ rest = .ok () := by
  cases checked with
  | error cause => simp [bind, Except.bind]
  | ok => simp [bind, Except.bind]

/-- What a worker configuration that passes promises. -/
theorem WorkerOptions.validate_eq_ok {R : Type} [LE R] [DecidableLE R] {c : WorkerOptions R} :
    c.validate = .ok () ↔
      1 ≤ c.minWorkers ∧ c.minWorkers ≤ c.maxWorkers ∧ 1 ≤ c.batchSize ∧ 0 < c.batchTimeout ∧
      1 ≤ c.maxBatchBytes.toInt ∧ 1 ≤ c.maxPendingTxs ∧ 1 ≤ c.maxPendingBytes.toInt ∧
      ¬ c.scaleUpThreshold ≤ c.scaleDownThreshold := by
  simp only [validate, check_bind_eq_ok, atLeastOne, positive, checkOption_eq_ok]

theorem WorkerOptions.validate_default : WorkerOptions.default.validate = .ok () := by
  rw [validate_eq_ok]
  decide +kernel

namespace Options

variable [Crypto] {R : Type} [LE R] [DecidableLE R]

theorem validate_eq_ok {c : Options R} :
    c.validate = .ok () ↔ c.worker.validate = .ok () ∧ c.primary.validate = .ok () ∧
      c.sync.validate = .ok () ∧ c.gc.validate = .ok () ∧ c.flowControl.validate = .ok () := by
  simp only [validate, check_bind_eq_ok, inPart_eq_ok]

theorem new_eq_ok {c : Options R} {cfg : Config} :
    c.new = .ok cfg ↔ c.validate = .ok () ∧ c.toConfig = cfg := by
  unfold new
  cases c.validate with
  | error cause => simp
  | ok => simp

/-- The defaults pass their own checks. -/
theorem new_default (validatorIndex : UInt16) (signer : Signer)
    (txValidator : Option TxValidator) :
    (Options.default validatorIndex signer txValidator).new =
      .ok (Options.default validatorIndex signer txValidator).toConfig := by
  rw [new_eq_ok, validate_eq_ok]
  exact ⟨⟨WorkerOptions.validate_default, rfl, rfl, rfl, rfl⟩, rfl⟩

end Options

end DagMempool
