import DagMempool.Types.Certificate

/-!
# An ideal signature scheme

`Crypto` is a parameter, so a result about it needs one instance to be about
anything. Here a signature is the public key followed by the digest: every key
has exactly one valid signature for a digest, and it shows who made it for what.
The hash is a polynomial in the bytes modulo `2 ^ 256`, which is injective on
short strings and cheap to evaluate. With `SliceSort.stable` these make every
definition of the development computable, where `IdealScheme` is open.
-/

namespace DagMempool

/-- Signatures that spell out their key and digest. -/
@[reducible] def idealCrypto : Crypto where
  sha256 data := data.foldl (fun acc b => acc * 257 + BitVec.ofNat 256 (b.toNat + 1)) 0
  ed25519Verify pk digest sig := sig == pk ++ digest

namespace IdealScheme

attribute [scoped instance] idealCrypto SliceSort.stable

end IdealScheme

/-- The signer of a validator whose public key is its index. -/
@[reducible] def idealSigner (index : UInt16) : @Signer idealCrypto :=
  @Signer.mk idealCrypto (fun digest => .ok (BitVec.ofNat 256 index.toNat ++ digest))
    (BitVec.ofNat 256 index.toNat) index (fun {d s} h => by
      cases h
      exact beq_self_eq_true _)

/-- The first `n` validators, each with its index as its key. -/
def idealValidators (n : Nat) (epoch : UInt64) : SimpleValidatorSet :=
  newSimpleValidatorSet
    ((List.range n).map fun i =>
      { index := UInt16.ofNat i, publicKey := BitVec.ofNat 256 i, power := 1 })
    epoch

@[simp] theorem count_idealValidators (n : Nat) (epoch : UInt64) :
    (idealValidators n epoch).count = n := by
  simp [idealValidators, newSimpleValidatorSet, SimpleValidatorSet.count]

/-- A header of `author` in `round`, signed. -/
def idealHeader (author : UInt16) (round : UInt64) (batchRefs : List BatchDigest)
    (parents : List CertificateRef) (now : Int64) : Header :=
  let h := @Header.new SliceSort.stable idealCrypto author round 0 batchRefs parents now
  { h with signature := BitVec.ofNat 256 author.toNat ++ h.digest }

/-- A vote for a digest, signed by the voter. -/
def idealVote (digest : Hash) (voter : UInt16) : Vote :=
  { headerDigest := digest, validator := voter,
    signature := BitVec.ofNat 256 voter.toNat ++ digest }

/-- A header certified by the voters listed. -/
def idealCertificate (h : Header) (voters : List UInt16) : Certificate :=
  @Certificate.new SliceSort.stable h (voters.map (idealVote h.digest))

/-- A certificate voted for by validators `1`, `2` and `3`. -/
def votedCertificate (author : UInt16) (round : UInt64) (batchRefs : List BatchDigest)
    (parents : List Certificate) : Certificate :=
  idealCertificate (idealHeader author round batchRefs (parents.map (·.getRef)) 0) [1, 2, 3]

/-- What these three certify in a round when they have no batches: a certificate each,
over their whole round before. -/
def votedRound : Nat → List Certificate
  | 0 => [1, 2, 3].map fun i => votedCertificate i 0 [] []
  | n + 1 =>
    let parents := votedRound n
    [1, 2, 3].map fun i => votedCertificate i (UInt64.ofNat (n + 1)) [] parents

end DagMempool
