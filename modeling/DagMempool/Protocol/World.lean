import DagMempool.Lib.Run
import DagMempool.Network.Messages
import DagMempool.Primary.Primary

/-!
# The validators together

Agreement between validators is a property of all of them at once. A world is a
primary and a certificate store for every index, and an event is one of them
doing something: a tick of its header loop, a message it is handed, a batch it
queues or acknowledges. Messages are not kept anywhere. Any message may be handed
to anybody at any time, any number of times, so that loss, delay, duplication and
whatever faulty validators make up are all covered.

What a step outputs is what was signed in it. A validator has one key, and uses it
for its headers, for its votes on the headers of others, and for acknowledgments
of batches, always on a hash. The outputs of a run are the log of all signatures,
and that signatures cannot be forged is a statement about this log: a valid
signature of an honest validator is on a digest that this validator has signed
before. `Authentic` asks it of every message that is handed over.
-/

namespace DagMempool

/-- A use of a key: on a header the validator made, which covers its own vote for it,
on a header it voted for, or on an acknowledgment. -/
inductive Signed where
  | header (signer : UInt16) (header : Header)
  | vote (signer : UInt16) (header : Header)
  | ack (signer : UInt16) (batchDigest : Hash) (round : UInt64)
  deriving DecidableEq

namespace Signed

def signer : Signed → UInt16
  | header i _ | vote i _ | ack i _ _ => i

/-- The header that was signed. -/
def about : Signed → Option Header
  | header _ h | vote _ h => some h
  | ack _ _ _ => none

def digest [Crypto] : Signed → Hash
  | header _ h | vote _ h => h.digest
  | ack i batchDigest round => batchAckSignBytes batchDigest i round

/-- The string that the digest is the hash of, or should be. -/
def bytes [SliceSort] : Signed → List UInt8
  | header _ h | vote _ h => h.encode
  | ack i batchDigest round => batchAckBytes batchDigest i round

end Signed

structure World (CS : Type) [Crypto] where
  primary : UInt16 → Primary
  certStore : UInt16 → CS

/-- What can happen to one validator. The batches of a header are available or not as
the event says. -/
inductive WorldEvent where
  | tick (i : UInt16) (hasAckQuorum : Hash → Bool) (order : IterOrder Vote) (now : Int)
  | header (i : UInt16) (header : Header) (available : Bool)
  | vote (i : UInt16) (vote : Vote) (order : IterOrder Vote) (now : Int)
  | certificate (i : UInt16) (cert : Certificate)
  | batch (i : UInt16) (digest : BatchDigest)
  | ack (i : UInt16) (batchDigest : Hash) (round : UInt64)
  | cleanup (i : UInt16) (now : Int)

namespace World

section

variable [Crypto] {CS : Type}

def set (w : World CS) (i : UInt16) (p : Primary) (certStore : CS) : World CS :=
  { primary := Function.update w.primary i p
    certStore := Function.update w.certStore i certStore }

theorem primary_set_self (w : World CS) (i : UInt16) (p : Primary) (certStore : CS) :
    (w.set i p certStore).primary i = p := by
  simp [set]

theorem primary_set_ne (w : World CS) {i j : UInt16} (hne : j ≠ i) (p : Primary)
    (certStore : CS) : (w.set i p certStore).primary j = w.primary j := by
  simp [set, hne]

/-- Certificates that are formed are noted; the primary has saved them. -/
def noted : CertSink (List Certificate) CS := fun certs certStore cert =>
  (certs ++ [cert], certStore)

variable [SliceSort] [CertificateStore CS]

def step (w : World CS) : WorldEvent → World CS × List Signed
  | .tick i hasAckQuorum order now =>
    let created :=
      (w.primary i).tryCreateHeader (w.certStore i) noted [] hasAckQuorum order now
    (w.set i created.2.1 created.2.2.1, created.1.toList.map (.header i))
  | .header i header available =>
    let handled := (w.primary i).handleHeader (w.certStore i)
      (fun _ _ => (available, ())) () header
    (w, match handled.1 with
      | .ok (some _) => [.vote i header]
      | _ => [])
  | .vote i vote order now =>
    let handled := (w.primary i).handleVote (w.certStore i) noted [] vote order now
    (w.set i handled.2.1 handled.2.2.1, [])
  | .certificate i cert =>
    let handled := (w.primary i).handleCertificate (w.certStore i) cert
    (w.set i handled.2.1 handled.2.2, [])
  | .batch i digest => (w.set i ((w.primary i).addBatchDigest digest) (w.certStore i), [])
  | .ack i batchDigest round =>
    (w, match (w.primary i).signer.sign (batchAckSignBytes batchDigest i round) with
      | .ok _ => [.ack i batchDigest round]
      | .error _ => [])
  | .cleanup i now => (w.set i ((w.primary i).cleanupPendingVotes now) (w.certStore i), [])

/-- Every validator has just started, over the same set of validators. -/
def Started (vs : SimpleValidatorSet) (w : World CS) : Prop :=
  ∀ i, ∃ signer cfg, w.primary i = { Primary.new i signer cfg vs with running := true }

end

/-! ## Signatures -/

section

variable [Crypto]

/-- A validator has signed a digest. -/
def SignedBy (log : List Signed) (i : UInt16) (digest : Hash) : Prop :=
  ∃ s ∈ log, s.signer = i ∧ s.digest = digest
deriving Decidable

/-- This is not a forged signature of an honest validator. -/
def Unforged (vs : SimpleValidatorSet) (honest : Finset UInt16) (log : List Signed)
    (i : UInt16) (digest : Hash) (sig : Signature) : Prop :=
  i ∈ honest → vs.verifySignature i digest sig = true → SignedBy log i digest
deriving Decidable

/-- None of the signatures in a certificate is forged. -/
def UnforgedCertificate (vs : SimpleValidatorSet) (honest : Finset UInt16)
    (log : List Signed) (c : Certificate) : Prop :=
  Unforged vs honest log c.author c.digest c.header.signature ∧
    ∀ vote ∈ c.votes, Unforged vs honest log vote.validator vote.headerDigest vote.signature
deriving Decidable

/-- None of the signatures in what is handed over is forged. -/
def Authentic {CS : Type} (vs : SimpleValidatorSet) (honest : Finset UInt16) (_ : World CS)
    (log : List Signed) : WorldEvent → Prop
  | .header _ h _ => Unforged vs honest log h.author h.digest h.signature
  | .vote _ v _ _ => Unforged vs honest log v.validator v.headerDigest v.signature
  | .certificate _ c => UnforgedCertificate vs honest log c
  | _ => True

instance {CS : Type} (vs : SimpleValidatorSet) (honest : Finset UInt16) (w : World CS)
    (log : List Signed) (e : WorldEvent) : Decidable (Authentic vs honest w log e) :=
  match e with
  | .header .. | .vote .. => inferInstanceAs (Decidable (Unforged _ _ _ _ _ _))
  | .certificate .. => inferInstanceAs (Decidable (UnforgedCertificate _ _ _ _))
  | .tick .. | .batch .. | .ack .. | .cleanup .. => .isTrue trivial

end

end World

end DagMempool
