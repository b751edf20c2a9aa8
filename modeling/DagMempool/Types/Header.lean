import DagMempool.Lib.Sort
import DagMempool.Types.Batch
import DagMempool.Types.Validator

/-!
# Headers and votes

A header is a DAG vertex proposal. Its digest covers every field but the
signature, with the batch references sorted first, and both the author's
signature and the votes sign the digest alone. Two things about the digest
matter later. It is a field, which nothing ties to the content once a header has
been received. And the bytes it hashes carry no counts: ten batch references
take as many bytes as nine parent references, so the bytes determine the content
only between headers with equally many batch references.
-/

namespace DagMempool

@[ext] structure CertificateRef where
  digest : Hash
  round : UInt64
  deriving DecidableEq, Repr

structure Header where
  author : UInt16
  round : UInt64
  epoch : UInt64
  batchRefs : List BatchDigest
  parents : List CertificateRef
  timestamp : Int64
  digest : Hash
  signature : Signature
  deriving DecidableEq, Repr

namespace BatchDigest

/-- A batch reference as `Header.ComputeDigest` appends it. -/
def encode (ref : BatchDigest) : List UInt8 :=
  ref.digest.bytes ++ (beBytes 2 ref.workerID.toNat ++ beBytes 2 ref.validatorID.toNat)

@[simp] theorem length_encode (ref : BatchDigest) : ref.encode.length = 36 := by
  simp [encode]

theorem encode_inj {a b : BatchDigest} (h : a.encode = b.encode) : a = b := by
  obtain ⟨hd, hrest⟩ := List.append_inj h (by simp)
  obtain ⟨hw, hv⟩ := List.append_inj hrest (by simp)
  have hd := Hash.bytes_inj hd
  have hw := UInt16.toNat_inj.mp (beBytes_inj a.workerID.toNat_lt b.workerID.toNat_lt hw)
  have hv := UInt16.toNat_inj.mp (beBytes_inj a.validatorID.toNat_lt b.validatorID.toNat_lt hv)
  exact BatchDigest.ext hd hw hv

end BatchDigest

namespace CertificateRef

/-- A parent reference as `Header.ComputeDigest` appends it. -/
def encode (ref : CertificateRef) : List UInt8 :=
  ref.digest.bytes ++ beBytes 8 ref.round.toNat

@[simp] theorem length_encode (ref : CertificateRef) : ref.encode.length = 40 := by
  simp [encode]

theorem encode_inj {a b : CertificateRef} (h : a.encode = b.encode) : a = b := by
  obtain ⟨hd, hr⟩ := List.append_inj h (by simp)
  have hd := Hash.bytes_inj hd
  have hr := UInt64.toNat_inj.mp (beBytes_inj a.round.toNat_lt b.round.toNat_lt hr)
  exact CertificateRef.ext hd hr

end CertificateRef

namespace Header

section

variable [SliceSort]

/-- The batch references in the order they are hashed in: sorted by digest. -/
def sortedBatchRefs (h : Header) : List BatchDigest :=
  SliceSort.sortSlice (fun a b => a.digest.less b.digest) h.batchRefs

/-- The four fixed fields as they are hashed. -/
def encodeFixed (h : Header) : List UInt8 :=
  beBytes 2 h.author.toNat ++ (beBytes 8 h.round.toNat ++
    (beBytes 8 h.epoch.toNat ++ beBytes 8 h.timestamp.toUInt64.toNat))

/-- What `ComputeDigest` hashes. -/
def encode (h : Header) : List UInt8 :=
  h.encodeFixed ++ (h.sortedBatchRefs.flatMap BatchDigest.encode ++
    h.parents.flatMap CertificateRef.encode)

def computeDigest [Crypto] (h : Header) : Hash := hashBytes h.encode

/-- `NewHeader`, with the clock reading it takes. -/
def new [Crypto] (author : UInt16) (round epoch : UInt64) (batchRefs : List BatchDigest)
    (parents : List CertificateRef) (now : Int64) : Header :=
  let h : Header :=
    { author, round, epoch, batchRefs, parents, timestamp := now, digest := 0,
      signature := emptySignature }
  { h with digest := h.computeDigest }

end

variable [Crypto]

def sign (h : Header) (signer : Signer) : Except GoError Header :=
  match signer.sign h.digest with
  | .error err => .error err
  | .ok sig => .ok { h with signature := sig }

/-- `Verify`: the signature, over the digest field. -/
def verify (h : Header) (pk : PublicKey) : Bool := pk.verify h.digest h.signature

theorem sign_eq_error {h : Header} {signer : Signer} {err : GoError}
    (hs : h.sign signer = .error err) : signer.sign h.digest = .error err := by
  unfold sign at hs
  split at hs
  · next hsign => cases hs; exact hsign
  · cases hs

theorem sign_eq_ok {h h' : Header} {signer : Signer} (hs : h.sign signer = .ok h') :
    ∃ sig, signer.sign h.digest = .ok sig ∧ h' = { h with signature := sig } := by
  unfold sign at hs
  split at hs
  · cases hs
  · next sig hsig =>
      cases hs
      exact ⟨sig, hsig, rfl⟩

/-! ## What the bytes determine -/

/-- The fields whose place in the bytes is fixed are the same. -/
structure SameFixed (h h' : Header) : Prop where
  author : h.author = h'.author
  round : h.round = h'.round
  epoch : h.epoch = h'.epoch
  timestamp : h.timestamp = h'.timestamp

/-- Everything the digest covers is the same; the references to batches up to their
order, which the digest does not see. -/
structure SameContent (h h' : Header) : Prop extends SameFixed h h' where
  parents : h.parents = h'.parents
  batchRefs : h.batchRefs.Perm h'.batchRefs

section

variable [SliceSort] {h h' : Header}

omit [Crypto] in
theorem length_encode (h : Header) :
    h.encode.length = 26 + 36 * h.batchRefs.length + 40 * h.parents.length := by
  have hrefs := length_flatMap_blocks BatchDigest.length_encode h.sortedBatchRefs
  have hparents := length_flatMap_blocks CertificateRef.length_encode h.parents
  have hsorted : h.sortedBatchRefs.length = h.batchRefs.length :=
    SliceSort.length_sortSlice _ _
  simp only [encode, encodeFixed, List.length_append, length_beBytes, hrefs, hparents, hsorted]
  omega

omit [Crypto] in
theorem encode_sameFixed (heq : h.encode = h'.encode) : SameFixed h h' := by
  obtain ⟨hfixed, -⟩ := List.append_inj heq (by simp [encodeFixed])
  obtain ⟨hauthor, hrest⟩ := List.append_inj hfixed (by simp)
  obtain ⟨hround, hrest⟩ := List.append_inj hrest (by simp)
  obtain ⟨hepoch, htime⟩ := List.append_inj hrest (by simp)
  refine ⟨?_, ?_, ?_, ?_⟩
  · exact UInt16.toNat_inj.mp (beBytes_inj h.author.toNat_lt h'.author.toNat_lt hauthor)
  · exact UInt64.toNat_inj.mp (beBytes_inj h.round.toNat_lt h'.round.toNat_lt hround)
  · exact UInt64.toNat_inj.mp (beBytes_inj h.epoch.toNat_lt h'.epoch.toNat_lt hepoch)
  · have htime := UInt64.toNat_inj.mp (beBytes_inj h.timestamp.toUInt64.toNat_lt
      h'.timestamp.toUInt64.toNat_lt htime)
    exact congrArg Int64.ofUInt64 htime

omit [Crypto] in
/-- With equally many references to batches, the bytes determine the content. -/
theorem encode_sameContent (heq : h.encode = h'.encode)
    (hlen : h.batchRefs.length = h'.batchRefs.length) : SameContent h h' := by
  obtain ⟨-, hrest⟩ := List.append_inj heq (by simp [encodeFixed])
  have hsorted : h.sortedBatchRefs.length = h'.sortedBatchRefs.length := by
    rw [sortedBatchRefs, sortedBatchRefs, SliceSort.length_sortSlice,
      SliceSort.length_sortSlice, hlen]
  obtain ⟨hrefs, hparents⟩ := flatMap_blocks_inj BatchDigest.length_encode
    (fun _ _ => BatchDigest.encode_inj) hsorted hrest
  refine ⟨encode_sameFixed heq, ?_, ?_⟩
  · have hplen : h.parents.length = h'.parents.length := by
      have hlen' := congrArg List.length heq
      rw [length_encode, length_encode, hlen] at hlen'
      omega
    have hparents : h.parents.flatMap CertificateRef.encode ++ [] =
        h'.parents.flatMap CertificateRef.encode ++ [] := by rw [hparents]
    exact (flatMap_blocks_inj CertificateRef.length_encode
      (fun _ _ => CertificateRef.encode_inj) hplen hparents).1
  · have hperm : h.sortedBatchRefs.Perm h.batchRefs := SliceSort.perm _ _
    have hperm' : h'.sortedBatchRefs.Perm h'.batchRefs := SliceSort.perm _ _
    rw [hrefs] at hperm
    exact hperm.symm.trans hperm'

end

end Header

structure Vote where
  headerDigest : Hash
  validator : UInt16
  signature : Signature
  deriving DecidableEq, Repr

namespace Vote

def new (headerDigest : Hash) (validator : UInt16) : Vote :=
  { headerDigest, validator, signature := emptySignature }

variable [Crypto]

def sign (v : Vote) (signer : Signer) : Except GoError Vote :=
  match signer.sign v.headerDigest with
  | .error err => .error err
  | .ok sig => .ok { v with signature := sig }

def verify (v : Vote) (pk : PublicKey) : Bool := pk.verify v.headerDigest v.signature

theorem sign_eq_ok {v v' : Vote} {signer : Signer} (hs : v.sign signer = .ok v') :
    ∃ sig, signer.sign v.headerDigest = .ok sig ∧ v' = { v with signature := sig } := by
  unfold sign at hs
  split at hs
  · cases hs
  · next sig hsig =>
      cases hs
      exact ⟨sig, hsig, rfl⟩

end Vote

end DagMempool
