import Mathlib.Data.Set.Function
import DagMempool.Lib.Bytes

/-!
# Hashes, keys, signatures and errors

The primitives everything else is built from. SHA-256 and Ed25519 verification
are what the program calls and does not define, so they are the two fields of
`Crypto`; every definition that hashes or verifies takes an instance of it. What
is proved about those definitions is proved for every choice of the two, and a
result that needs SHA-256 to be free of collisions, or signatures to be
unforgeable, says so in its hypotheses.

`Hash.String` is lower-case hexadecimal, in which the digits and letters are in
their numeric order, so comparing two such strings compares the two hashes as
big-endian numbers; `Hash.less` is that comparison.
-/

namespace DagMempool

/-- 32 bytes, as the big-endian number they spell. -/
abbrev Hash := BitVec 256

/-- `PublicKeySize` is 32 bytes. -/
abbrev PublicKey := BitVec 256

/-- `SignatureSize` is 64 bytes. -/
abbrev Signature := BitVec 512

/-- The cryptographic functions the program calls. -/
class Crypto where
  /-- `sha256.Sum256` -/
  sha256 : List UInt8 → Hash
  /-- `ed25519.Verify` -/
  ed25519Verify : PublicKey → Hash → Signature → Bool

/-- The bytes of a hash. -/
def Hash.bytes (h : Hash) : List UInt8 := beBytes 32 h.toNat

@[simp] theorem Hash.length_bytes (h : Hash) : h.bytes.length = 32 :=
  length_beBytes 32 _

theorem Hash.bytes_inj {a b : Hash} (h : a.bytes = b.bytes) : a = b := by
  have ha : a.toNat < 256 ^ 32 := a.isLt
  have hb : b.toNat < 256 ^ 32 := b.isLt
  exact BitVec.eq_of_toNat_eq (beBytes_inj ha hb h)

/-- `a.String() < b.String()` -/
def Hash.less (a b : Hash) : Bool := decide (a.toNat < b.toNat)

def emptySignature : Signature := 0

section

variable [Crypto]

def hashBytes (data : List UInt8) : Hash := Crypto.sha256 data

def PublicKey.verify (pk : PublicKey) (digest : Hash) (sig : Signature) : Bool :=
  Crypto.ed25519Verify pk digest sig

/-- No two of these strings have one hash. Over all strings this is false of any
256-bit hash, so results assume it of the strings they compare. -/
def CollisionFree (data : List (List UInt8)) : Prop :=
  ∀ x ∈ data, ∀ y ∈ data, hashBytes x = hashBytes y → x = y
deriving Decidable

theorem CollisionFree.mono {l₁ l₂ : List (List UInt8)} (h : CollisionFree l₂)
    (hle : l₁ ⊆ l₂) : CollisionFree l₁ :=
  fun x hx y hy => h x (hle hx) y (hle hy)

end

/-! ## Errors -/

/-- The sentinel errors of `types/errors.go` that the modelled code returns, and
any other error by its text. -/
inductive GoError where
  | txAlreadyExists
  | txValidationFailed (cause : String)
  | workerBackpressure
  | batchNotFound
  | duplicateHeader
  | missingParents
  | invalidVote
  | certificateNotFound
  | insufficientQuorum
  | invalidSignature
  | validatorNotFound
  | epochMismatch
  | roundMismatch
  | flowControlPaused
  | notRunning
  | other (text : String)
  deriving DecidableEq, Repr

/-- `err.Error()` -/
def GoError.text : GoError → String
  | .txAlreadyExists => "transaction already exists"
  | .txValidationFailed cause => "transaction validation failed: " ++ cause
  | .workerBackpressure => "worker back-pressure: too many pending transactions"
  | .batchNotFound => "batch not found"
  | .duplicateHeader => "duplicate header from same author for same round"
  | .missingParents => "header is missing required parent certificates"
  | .invalidVote => "invalid vote"
  | .certificateNotFound => "certificate not found"
  | .insufficientQuorum => "insufficient quorum: need 2f+1 votes"
  | .invalidSignature => "invalid signature"
  | .validatorNotFound => "validator not found"
  | .epochMismatch => "epoch mismatch"
  | .roundMismatch => "round mismatch"
  | .flowControlPaused => "flow control: DAG production paused, waiting for consensus"
  | .notRunning => "looseberry is not running"
  | .other text => text

/-! ## Signers -/

/-- `Signer`: an implementation may refuse to sign, but what it signs verifies
under its own public key. -/
structure Signer [Crypto] where
  sign : Hash → Except GoError Signature
  publicKey : PublicKey
  validatorIndex : UInt16
  verify_sign : ∀ {d s}, sign d = .ok s → publicKey.verify d s = true

end DagMempool
