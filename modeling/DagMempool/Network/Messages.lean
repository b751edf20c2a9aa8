import DagMempool.Types.Certificate

/-!
# Messages

What validators send each other, without the sender where no handler reads it. An
ack signs the hash of the batch's digest, the validator and the round; those
bytes are `32 + 2 + 8` long, which is no length the bytes of a header can have.
-/

namespace DagMempool

structure BatchAckMessage where
  batchDigest : Hash
  validator : UInt16
  round : UInt64
  signature : Signature

/-- What `BatchAckSignBytes` hashes. -/
def batchAckBytes (batchDigest : Hash) (validator : UInt16) (round : UInt64) : List UInt8 :=
  batchDigest.bytes ++ (beBytes 2 validator.toNat ++ beBytes 8 round.toNat)

def batchAckSignBytes [Crypto] (batchDigest : Hash) (validator : UInt16) (round : UInt64) :
    Hash :=
  hashBytes (batchAckBytes batchDigest validator round)

@[simp] theorem length_batchAckBytes (batchDigest : Hash) (validator : UInt16)
    (round : UInt64) : (batchAckBytes batchDigest validator round).length = 42 := by
  simp [batchAckBytes]

structure BatchRequestMessage where
  batchDigest : Hash
  requester : UInt16

/-- `Found` and `Batch` together: a batch is there exactly when it was found, or the
message says nothing. -/
structure BatchResponseMessage where
  batch : Option Batch
  sender : UInt16

structure SyncRequest where
  fromRound : UInt64
  toRound : UInt64
  requester : UInt16

structure SyncResponse where
  certificates : List Certificate
  batches : List Batch
  fromRound : UInt64
  toRound : UInt64

end DagMempool
