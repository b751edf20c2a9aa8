import DagMempool.Types.Hash

/-!
# Transactions and batches

A batch carries its digest as a field. `newBatch` fills it in from the content;
a batch that came over the wire carries whatever its sender put there, and
`Batch.verify` is what tells the two apart.
-/

namespace DagMempool

/-- A raw transaction; its format is opaque. -/
abbrev Transaction := List UInt8

def Transaction.hash [Crypto] (tx : Transaction) : Hash := hashBytes tx

def Transaction.size (tx : Transaction) : Nat := tx.length

/-- `BatchDigest`: a reference to a batch. -/
@[ext] structure BatchDigest where
  digest : Hash
  workerID : UInt16
  validatorID : UInt16
  deriving DecidableEq, Repr

structure Batch where
  workerID : UInt16
  validatorID : UInt16
  round : UInt64
  transactions : List Transaction
  digest : Hash
  timestamp : Int64
  deriving DecidableEq, Repr

namespace Batch

/-- `Size`: the total size of the transactions. The source adds in `int64`. -/
def size (b : Batch) : Int64 :=
  b.transactions.foldl (fun total tx => total + Int64.ofNat tx.size) 0

variable [Crypto]

/-- What `ComputeDigest` hashes: the fixed fields, then every transaction's hash. -/
def encode (b : Batch) : List UInt8 :=
  beBytes 2 b.workerID.toNat ++ beBytes 2 b.validatorID.toNat ++ beBytes 8 b.round.toNat ++
    beBytes 8 b.timestamp.toUInt64.toNat ++
    b.transactions.flatMap fun tx => tx.hash.bytes

def computeDigest (b : Batch) : Hash := hashBytes b.encode

def verify (b : Batch) : Bool := b.digest == b.computeDigest

/-- A transaction of the batch has this hash. -/
def Holds (b : Batch) (txHash : Hash) : Prop := txHash ∈ b.transactions.map Transaction.hash
deriving Decidable

/-- `NewBatch`, with the clock reading it takes. -/
def new (workerID validatorID : UInt16) (round : UInt64) (txs : List Transaction)
    (now : Int64) : Batch :=
  let b : Batch :=
    { workerID, validatorID, round, transactions := txs, digest := 0, timestamp := now }
  { b with digest := b.computeDigest }

def getDigest (b : Batch) : BatchDigest :=
  { digest := b.digest, workerID := b.workerID, validatorID := b.validatorID }

theorem verify_eq_true {b : Batch} : b.verify = true ↔ b.digest = b.computeDigest := by
  simp [verify]

/-- A batch made by `NewBatch` passes its own check. -/
theorem verify_new (workerID validatorID : UInt16) (round : UInt64)
    (txs : List Transaction) (now : Int64) :
    (new workerID validatorID round txs now).verify = true :=
  verify_eq_true.mpr rfl

end Batch

end DagMempool
