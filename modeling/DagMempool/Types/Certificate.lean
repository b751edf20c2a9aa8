import DagMempool.Lib.Bits
import DagMempool.Types.Header

/-!
# Certificates

A certificate is a header with a list of votes. `Certificate.verify` is the only
check a received one goes through. It counts the entries of the vote list, not
the validators behind them, and it looks at signatures over the digest field, not
at what the digest was computed from.
-/

namespace DagMempool

abbrev BitSet := List UInt64

namespace BitSet

def new (n : Nat) : BitSet := List.replicate ((n + 63) / 64) 0

/-- `Set`: an index past the last word is dropped. -/
def setBit (bs : BitSet) (i : Nat) : BitSet :=
  bs.modify (i / 64) fun word => word ||| (1 <<< UInt64.ofNat (i % 64))

/-- `Clear`, with the same check. -/
def clearBit (bs : BitSet) (i : Nat) : BitSet :=
  bs.modify (i / 64) fun word => word &&& ~~~(1 <<< UInt64.ofNat (i % 64))

def isSet (bs : BitSet) (i : Nat) : Bool :=
  match bs[i / 64]? with
  | none => false
  | some word => word &&& (1 <<< UInt64.ofNat (i % 64)) != 0

/-- The loop of `popCount`, which takes the lowest bit off the word until there is none. -/
def popCountLoop (x : UInt64) (count : Nat) : Nat :=
  if x = 0 then count else popCountLoop (x &&& (x - 1)) (count + 1)
termination_by x.toNat
decreasing_by
  next hx =>
    have hx : x.toNat ≠ 0 := fun h => hx (UInt64.toNat_inj.mp h)
    rw [UInt64.toNat_and, UInt64.toNat_sub_of_le x 1 (UInt64.le_iff_toNat_le.mpr (by
      show 1 ≤ x.toNat
      omega))]
    exact Bits.and_sub_one_lt hx

def popCount (x : UInt64) : Nat := popCountLoop x 0

def count (bs : BitSet) : Nat := bs.foldl (fun count word => count + popCount word) 0

end BitSet

structure Certificate where
  header : Header
  votes : List Vote
  signerMask : BitSet
  deriving DecidableEq, Repr

namespace Certificate

/-- `NewCertificate`: the votes sorted by validator, and the mask built from them. -/
def new [SliceSort] (header : Header) (votes : List Vote) : Certificate :=
  let sortedVotes :=
    SliceSort.sortSlice (fun a b => decide (a.validator.toNat < b.validator.toNat)) votes
  { header
    votes := sortedVotes
    signerMask := sortedVotes.foldl (fun mask v => BitSet.setBit mask v.validator.toNat)
      (BitSet.new 256) }

def digest (c : Certificate) : Hash := c.header.digest

def round (c : Certificate) : UInt64 := c.header.round

def author (c : Certificate) : UInt16 := c.header.author

def hasQuorum (c : Certificate) (validatorCount : Nat) : Bool :=
  let f := (validatorCount - 1) / 3
  let quorum := 2 * f + 1
  decide (quorum ≤ c.votes.length)

def hasVoteFrom (c : Certificate) (validatorIndex : UInt16) : Bool :=
  BitSet.isSet c.signerMask validatorIndex.toNat

def getRef (c : Certificate) : CertificateRef := { digest := c.digest, round := c.round }

variable [Crypto]

/-- The loop of `Verify` over the votes. -/
def verifyVotes (vs : SimpleValidatorSet) (digest : Hash) : List Vote → Except GoError Unit
  | [] => .ok ()
  | vote :: votes =>
    if vote.headerDigest ≠ digest then .error .invalidVote
    else match vs.getByIndex vote.validator with
      | none => .error .validatorNotFound
      | some validator =>
        if !vote.verify validator.publicKey then .error .invalidSignature
        else verifyVotes vs digest votes

def verify (c : Certificate) (vs : SimpleValidatorSet) : Except GoError Unit :=
  if !c.hasQuorum vs.count then .error .insufficientQuorum
  else match vs.getByIndex c.header.author with
    | none => .error .validatorNotFound
    | some author =>
      if !c.header.verify author.publicKey then .error .invalidSignature
      else verifyVotes vs c.header.digest c.votes

/-- What `Verify` asks of one vote. -/
structure VoteOk (vs : SimpleValidatorSet) (digest : Hash) (vote : Vote) : Prop where
  headerDigest : vote.headerDigest = digest
  signed : vs.verifySignature vote.validator digest vote.signature = true

/-- What `Verify` asks of a certificate: its successful runs, read off. -/
structure Verified (vs : SimpleValidatorSet) (c : Certificate) : Prop where
  quorum : vs.quorum ≤ c.votes.length
  author : vs.verifySignature c.author c.digest c.header.signature = true
  votes : ∀ vote ∈ c.votes, VoteOk vs c.digest vote

theorem verifyVotes_eq_ok {vs : SimpleValidatorSet} {digest : Hash} {votes : List Vote} :
    verifyVotes vs digest votes = .ok () ↔ ∀ vote ∈ votes, VoteOk vs digest vote := by
  induction votes with
  | nil => simp [verifyVotes]
  | cons vote votes ih =>
    rw [List.forall_mem_cons, ← ih, verifyVotes]
    constructor
    · intro h
      split at h
      · cases h
      · next hd =>
          have hd : vote.headerDigest = digest := by simpa using hd
          split at h
          · cases h
          · next validator hv =>
              split at h
              · cases h
              · next hsig =>
                  have hsig : vote.verify validator.publicKey = true := by simpa using hsig
                  refine ⟨⟨hd, ?_⟩, h⟩
                  rw [SimpleValidatorSet.verifySignature_eq_true]
                  exact ⟨validator, hv, hd ▸ hsig⟩
    · rintro ⟨⟨hd, hsig⟩, h⟩
      obtain ⟨validator, hv, hver⟩ := SimpleValidatorSet.verifySignature_eq_true.mp hsig
      have hver : vote.verify validator.publicKey = true := by rw [Vote.verify, hd]; exact hver
      simp [hd, hv, hver, h]

theorem verify_eq_ok {vs : SimpleValidatorSet} {c : Certificate} :
    c.verify vs = .ok () ↔ Verified vs c := by
  unfold verify
  constructor
  · intro h
    split at h
    · cases h
    · next hq =>
        split at h
        · cases h
        · next author ha =>
            split at h
            · cases h
            · next hsig =>
                have hq : c.hasQuorum vs.count = true := by simpa using hq
                have hsig : c.header.verify author.publicKey = true := by simpa using hsig
                refine ⟨of_decide_eq_true hq, ?_, verifyVotes_eq_ok.mp h⟩
                rw [SimpleValidatorSet.verifySignature_eq_true]
                exact ⟨author, ha, hsig⟩
  · rintro ⟨hq, ha, hvotes⟩
    obtain ⟨author, hget, hsig⟩ := SimpleValidatorSet.verifySignature_eq_true.mp ha
    have hq' : c.hasQuorum vs.count = true := decide_eq_true hq
    have hget' : vs.getByIndex c.header.author = some author := hget
    have hsig' : c.header.verify author.publicKey = true := hsig
    simp only [hq', hget', hsig', Bool.not_true, Bool.false_eq_true, if_false]
    exact verifyVotes_eq_ok.mpr hvotes

end Certificate

end DagMempool
