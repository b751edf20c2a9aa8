import DagMempool.Lib.SortTies
import DagMempool.Types.Ideal

/-!
# What a digest binds

A batch's digest is taken of fields of fixed width and of one hash for each transaction, so
that, hashes apart, the bytes are the batch. A header's is taken of two lists one after the
other, and binds less and more than its content. Less, since nothing says where the references
to batches end and those to parents begin: ten references of 36 bytes are nine of 40. More,
since the references to batches are sorted by digest only, and two with one digest stay in an
order that depends on the one they came in.

Between two headers the digest binds the content exactly if neither happens: none of the two
has references to batches, behind those of the other, that read as parents before those of its
own; and if they differ in the order of their references alone, these have different digests.
-/

namespace DagMempool

/-! ## Batches

Every field is encoded in a fixed number of bytes, and the transactions by their hashes, so the
encoding can be read back up to those. -/

namespace Batch

variable [Crypto] {b b' : Batch}

/-- The fields the digest of a batch is computed from. -/
structure SameContent (b b' : Batch) : Prop where
  workerID : b.workerID = b'.workerID
  validatorID : b.validatorID = b'.validatorID
  round : b.round = b'.round
  timestamp : b.timestamp = b'.timestamp
  transactions : b.transactions = b'.transactions

theorem SameContent.encode_eq (h : b.SameContent b') : b.encode = b'.encode := by
  rw [encode, encode, h.workerID, h.validatorID, h.round, h.timestamp, h.transactions]

theorem encode_inj (h : b.encode = b'.encode) :
    b.workerID = b'.workerID ∧ b.validatorID = b'.validatorID ∧ b.round = b'.round ∧
      b.timestamp = b'.timestamp ∧
      b.transactions.map Transaction.hash = b'.transactions.map Transaction.hash := by
  have hsplit : ∀ b : Batch, b.encode = beBytes 2 b.workerID.toNat ++
      (beBytes 2 b.validatorID.toNat ++ (beBytes 8 b.round.toNat ++
        (beBytes 8 b.timestamp.toUInt64.toNat ++
          (b.transactions.map Transaction.hash).flatMap Hash.bytes))) := by
    intro b
    simp only [encode, List.append_assoc, List.flatMap_map]
  rw [hsplit, hsplit] at h
  obtain ⟨hworker, h⟩ := List.append_inj h (by simp)
  obtain ⟨hvalidator, h⟩ := List.append_inj h (by simp)
  obtain ⟨hround, h⟩ := List.append_inj h (by simp)
  obtain ⟨htime, hhashes⟩ := List.append_inj h (by simp)
  refine ⟨?_, ?_, ?_, ?_, ?_⟩
  · exact UInt16.toNat_inj.mp (beBytes_inj b.workerID.toNat_lt b'.workerID.toNat_lt hworker)
  · exact UInt16.toNat_inj.mp
      (beBytes_inj b.validatorID.toNat_lt b'.validatorID.toNat_lt hvalidator)
  · exact UInt64.toNat_inj.mp (beBytes_inj b.round.toNat_lt b'.round.toNat_lt hround)
  · have htime := UInt64.toNat_inj.mp (beBytes_inj b.timestamp.toUInt64.toNat_lt
      b'.timestamp.toUInt64.toNat_lt htime)
    exact congrArg Int64.ofUInt64 htime
  · -- The hashes take up all the rest, so there are equally many.
    have hlen := congrArg List.length hhashes
    rw [length_flatMap_blocks Hash.length_bytes, length_flatMap_blocks Hash.length_bytes] at hlen
    have hhashes : (b.transactions.map Transaction.hash).flatMap Hash.bytes ++ [] =
        (b'.transactions.map Transaction.hash).flatMap Hash.bytes ++ [] := by rw [hhashes]
    exact (flatMap_blocks_inj Hash.length_bytes (fun _ _ => Hash.bytes_inj) (by omega)
      hhashes).1

theorem transactions_eq_of_hashes {txs txs' : List Transaction}
    (hcf : CollisionFree (txs ++ txs'))
    (h : txs.map Transaction.hash = txs'.map Transaction.hash) : txs = txs' := by
  refine List.ext_getElem (by simpa using congrArg List.length h) fun i hi hi' => ?_
  refine hcf _ (List.mem_append_left _ (List.getElem_mem hi)) _
    (List.mem_append_right _ (List.getElem_mem hi')) ?_
  have hget := List.getElem_of_eq h (by simpa using hi)
  rwa [List.getElem_map, List.getElem_map] at hget

/-- The digest of a batch binds its content: worker, validator, round, time, and the
transactions in their order. -/
theorem computeDigest_binds_content (hbytes : CollisionFree [b.encode, b'.encode])
    (htxs : CollisionFree (b.transactions ++ b'.transactions)) :
    b.computeDigest = b'.computeDigest ↔ b.SameContent b' := by
  constructor
  · intro h
    have hencode : b.encode = b'.encode := hbytes _ (by simp) _ (by simp) h
    obtain ⟨hworker, hvalidator, hround, htime, hhashes⟩ := encode_inj hencode
    exact ⟨hworker, hvalidator, hround, htime, transactions_eq_of_hashes htxs hhashes⟩
  · intro h
    exact congrArg hashBytes h.encode_eq

end Batch

/-! ## Headers

The two lists of a header are of fields of different widths, 36 bytes and 40. Equal bytes are
split into the fixed part and the rest; the rest is read from the longer list of references. -/

namespace Header

variable {h h' : Header}

/-- The digests of the references tell them apart. -/
def DigestsDiffer (h : Header) : Prop :=
  ∀ a ∈ h.batchRefs, ∀ b ∈ h.batchRefs, a.digest = b.digest → a = b

/-- An order of the references in which the digest may take them. -/
def Arranged (h : Header) (refs : List BatchDigest) : Prop :=
  SliceSort.Arranges (fun ref : BatchDigest => ref.digest.toNat) h.batchRefs refs

/-- The second header has references to batches behind those of the first, and they read as
the parents the first has before those of the second. -/
def ReadsAs (h h' : Header) : Prop :=
  h.SameFixed h' ∧ ∃ refs more parents, h.Arranged refs ∧ more ≠ [] ∧ h'.Arranged (refs ++ more) ∧
    h.parents = parents ++ h'.parents ∧
    more.flatMap BatchDigest.encode = parents.flatMap CertificateRef.encode

theorem ReadsAs.length_lt (hreads : h.ReadsAs h') :
    h.batchRefs.length < h'.batchRefs.length := by
  obtain ⟨-, refs, more, parents, hrefs, hmore, hall, -⟩ := hreads
  have hpos := List.length_pos_of_ne_nil hmore
  rw [← hrefs.perm.length_eq, ← hall.perm.length_eq, List.length_append]
  omega

theorem SameFixed.symm (hfixed : h.SameFixed h') : h'.SameFixed h :=
  ⟨hfixed.author.symm, hfixed.round.symm, hfixed.epoch.symm, hfixed.timestamp.symm⟩

theorem SameContent.symm (hsame : h.SameContent h') : h'.SameContent h :=
  ⟨hsame.toSameFixed.symm, hsame.parents.symm, hsame.batchRefs.symm⟩

theorem SameFixed.encodeFixed_eq (hfixed : h.SameFixed h') : h.encodeFixed = h'.encodeFixed := by
  rw [encodeFixed, encodeFixed, hfixed.author, hfixed.round, hfixed.epoch, hfixed.timestamp]

section

variable [SliceSort]

theorem arranged_sortedBatchRefs (h : Header) : h.Arranged h.sortedBatchRefs :=
  SliceSort.arranges_sortSlice _ h.batchRefs

theorem encode_eq_iff : h.encode = h'.encode ↔ h.SameFixed h' ∧
    h.sortedBatchRefs.flatMap BatchDigest.encode ++ h.parents.flatMap CertificateRef.encode =
      h'.sortedBatchRefs.flatMap BatchDigest.encode ++
        h'.parents.flatMap CertificateRef.encode := by
  constructor
  · intro heq
    exact ⟨encode_sameFixed heq, (List.append_inj heq (by simp [encodeFixed])).2⟩
  · rintro ⟨hfixed, hrest⟩
    rw [encode, encode, hfixed.encodeFixed_eq, hrest]

/-- If the first header has not more references to batches, equal bytes are equal content, or
some of the second's references read as parents. -/
theorem same_or_readsAs (heq : h.encode = h'.encode)
    (hle : h.batchRefs.length ≤ h'.batchRefs.length) : h.SameContent h' ∨ h.ReadsAs h' := by
  rcases Nat.eq_or_lt_of_le hle with hlen | hlt
  · exact .inl (encode_sameContent heq hlen)
  · obtain ⟨hfixed, hrest⟩ := encode_eq_iff.mp heq
    have hsorted := SliceSort.length_sortSlice (fun a b : BatchDigest => a.digest.less b.digest)
    have hshort : h.sortedBatchRefs.length = h.batchRefs.length := hsorted _
    have hlong : h'.sortedBatchRefs.length = h'.batchRefs.length := hsorted _
    have hbytes := length_encode h
    rw [heq, length_encode] at hbytes
    -- Cut the longer list behind the shorter one, and the parents where the two meet.
    let more := h'.sortedBatchRefs.drop h.batchRefs.length
    let parents := h.parents.take (h.parents.length - h'.parents.length)
    have hcut : h'.sortedBatchRefs = h'.sortedBatchRefs.take h.batchRefs.length ++ more :=
      (List.take_append_drop _ _).symm
    rw [hcut, List.flatMap_append, List.append_assoc] at hrest
    obtain ⟨hrefs, hrest⟩ := flatMap_blocks_inj BatchDigest.length_encode
      (fun _ _ => BatchDigest.encode_inj) (by rw [List.length_take]; omega) hrest
    have hmore : more.length = h'.batchRefs.length - h.batchRefs.length := by
      rw [List.length_drop, hlong]
    have hcutParents : h.parents =
        parents ++ h.parents.drop (h.parents.length - h'.parents.length) :=
      (List.take_append_drop _ _).symm
    have hparents : parents.length = h.parents.length - h'.parents.length := by
      rw [List.length_take]
      omega
    rw [hcutParents, List.flatMap_append] at hrest
    obtain ⟨hread, htail⟩ := List.append_inj hrest (by
      rw [length_flatMap_blocks CertificateRef.length_encode,
        length_flatMap_blocks BatchDigest.length_encode, hparents, hmore]
      omega)
    have htail : (h.parents.drop (h.parents.length - h'.parents.length)).flatMap
        CertificateRef.encode ++ [] = h'.parents.flatMap CertificateRef.encode ++ [] := by
      rw [htail]
    obtain ⟨htail, -⟩ := flatMap_blocks_inj CertificateRef.length_encode
      (fun _ _ => CertificateRef.encode_inj) (by rw [List.length_drop]; omega) htail
    refine .inr ⟨hfixed, h.sortedBatchRefs, more, parents, h.arranged_sortedBatchRefs, ?_, ?_,
      ?_, hread.symm⟩
    · intro hnil
      rw [hnil] at hmore
      simp at hmore
      omega
    · rw [hrefs, ← hcut]
      exact h'.arranged_sortedBatchRefs
    · rw [← htail]
      exact hcutParents

theorem SameContent.encode_eq (hsame : h.SameContent h')
    (horder : h.batchRefs = h'.batchRefs ∨ h.DigestsDiffer) : h.encode = h'.encode := by
  have hsorted : h.sortedBatchRefs = h'.sortedBatchRefs := by
    rcases horder with hrefs | hdiffer
    · rw [sortedBatchRefs, sortedBatchRefs, hrefs]
    · refine h.arranged_sortedBatchRefs.unique h'.arranged_sortedBatchRefs hsame.batchRefs ?_
      intro a ha b hb hd
      exact hdiffer a ha b hb (BitVec.eq_of_toNat_eq hd)
  rw [encode_eq_iff, hsorted, hsame.parents]
  exact ⟨hsame.toSameFixed, rfl⟩

end

section

variable [Crypto]

/-- The digests say that the content is the same exactly if it is, however ties are broken. -/
def Bound (h h' : Header) : Prop :=
  ∀ _ : SliceSort, h.computeDigest = h'.computeDigest ↔ h.SameContent h'

theorem Bound.symm (hbound : h.Bound h') : h'.Bound h := fun sorter =>
  ⟨fun heq => ((hbound sorter).mp heq.symm).symm,
    fun hsame => ((hbound sorter).mpr hsame.symm).symm⟩

theorem Bound.not_readsAs (hbound : h.Bound h') : ¬ h.ReadsAs h' := by
  intro hreads
  have hlen := hreads.length_lt
  obtain ⟨hfixed, refs, more, parents, hrefs, -, hall, hparents, hread⟩ := hreads
  have hne : h.batchRefs ≠ h'.batchRefs := by
    intro heq
    rw [heq] at hlen
    omega
  obtain ⟨sorter, hsorted, hsorted'⟩ := SliceSort.exists_sorter hrefs hall hne
  have hsorted : h.sortedBatchRefs = refs := hsorted
  have hsorted' : h'.sortedBatchRefs = refs ++ more := hsorted'
  have heq : h.encode = h'.encode := by
    rw [encode_eq_iff, hsorted, hsorted', hparents]
    refine ⟨hfixed, ?_⟩
    rw [List.flatMap_append, List.flatMap_append, hread, List.append_assoc]
  have hsame := (hbound sorter).mp (congrArg hashBytes heq)
  exact absurd hsame.batchRefs.length_eq (by omega)

/-- Two references of one digest can be taken in one order for one header and in the other
order for the other. -/
theorem Bound.digestsDiffer (hcf : ∀ _ : SliceSort, CollisionFree [h.encode, h'.encode])
    (hbound : h.Bound h') (hsame : h.SameContent h') (hne : h.batchRefs ≠ h'.batchRefs) :
    h.DigestsDiffer := by
  intro a ha b hb hd
  by_contra hab
  obtain ⟨refs, refs', hrefs, hrefs', hdiff⟩ := SliceSort.exists_two_arrangements
    (fun ref : BatchDigest => ref.digest.toNat) ha hb (congrArg BitVec.toNat hd) hab
  have hrefs' : h'.Arranged refs' := ⟨hrefs'.perm.trans hsame.batchRefs, hrefs'.sorted⟩
  obtain ⟨sorter, hsorted, hsorted'⟩ := SliceSort.exists_sorter hrefs hrefs' hne
  have hsorted : h.sortedBatchRefs = refs := hsorted
  have hsorted' : h'.sortedBatchRefs = refs' := hsorted'
  have hencode := hcf sorter _ (by simp) _ (by simp) ((hbound sorter).mpr hsame)
  obtain ⟨-, hrest⟩ := encode_eq_iff.mp hencode
  rw [hsorted, hsorted'] at hrest
  have hlen : refs.length = refs'.length := by
    rw [hrefs.perm.length_eq, hrefs'.perm.length_eq, hsame.batchRefs.length_eq]
  exact hdiff (flatMap_blocks_inj BatchDigest.length_encode
    (fun _ _ => BatchDigest.encode_inj) hlen hrest).1

/-- However ties are broken, the digests of two headers are equal exactly if they have the same
author, round, epoch, time and parents and the same references to batches up to their order:
provided that headers of the same content list their references in one order or have no two
with one digest, and that neither header's references read as parents of the other. -/
theorem computeDigest_binds_content_iff (h h' : Header)
    (hcf : ∀ _ : SliceSort, CollisionFree [h.encode, h'.encode]) :
    (∀ _ : SliceSort, h.computeDigest = h'.computeDigest ↔ h.SameContent h') ↔
      (h.SameContent h' → h.batchRefs = h'.batchRefs ∨ h.DigestsDiffer) ∧
        ¬ h.ReadsAs h' ∧ ¬ h'.ReadsAs h := by
  constructor
  · intro hbound
    have hbound : h.Bound h' := hbound
    refine ⟨fun hsame => ?_, hbound.not_readsAs, hbound.symm.not_readsAs⟩
    by_cases hne : h.batchRefs = h'.batchRefs
    · exact .inl hne
    · exact .inr (hbound.digestsDiffer hcf hsame hne)
  · rintro ⟨horder, hreads, hreads'⟩ sorter
    constructor
    · intro heq
      have hencode : h.encode = h'.encode := hcf sorter _ (by simp) _ (by simp) heq
      rcases Nat.le_total h.batchRefs.length h'.batchRefs.length with hle | hle
      · exact (same_or_readsAs hencode hle).resolve_right hreads
      · exact ((same_or_readsAs hencode.symm hle).resolve_right hreads').symm
    · intro hsame
      exact congrArg hashBytes (hsame.encode_eq (horder hsame))

end

end Header

section

open IdealScheme

/-- A batch of two transactions, and the same an instant later. -/
def earlyBatch : Batch := .new 0 1 0 [[1, 2, 3], [4]] 5

def lateBatch : Batch := .new 0 1 0 [[1, 2, 3], [4]] 6

theorem computeDigest_binds_content_late :
    CollisionFree [earlyBatch.encode, lateBatch.encode] ∧
      (earlyBatch.computeDigest = lateBatch.computeDigest ↔ earlyBatch.SameContent lateBatch) ∧
      earlyBatch.computeDigest ≠ lateBatch.computeDigest := by
  have hbytes : CollisionFree [earlyBatch.encode, lateBatch.encode] := by decide +kernel
  have hiff := Batch.computeDigest_binds_content hbytes (by decide +kernel)
  refine ⟨hbytes, hiff, fun heq => ?_⟩
  exact absurd (hiff.mp heq).timestamp (by decide)

/-- Ten references to batches, and nine to parents, all of them zero. -/
def tenReferences : Header := idealHeader 0 0 (List.replicate 10 ⟨0, 0, 0⟩) [] 0

def nineParents : Header := idealHeader 0 0 [] (List.replicate 9 ⟨0, 0⟩) 0

/-- References of two workers to a batch of one digest, either way round. -/
def workersInOrder : Header := idealHeader 0 0 [⟨7, 0, 0⟩, ⟨7, 1, 0⟩] [] 0

def workersSwapped : Header := idealHeader 0 0 [⟨7, 1, 0⟩, ⟨7, 0, 0⟩] [] 0

/-- The first two have the same bytes to hash and nothing else in common; the other two have
the same content, and different digests. -/
theorem digest_and_content_differ :
    (tenReferences.encode = nineParents.encode ∧
      tenReferences.computeDigest = nineParents.computeDigest ∧
      ¬ tenReferences.SameContent nineParents) ∧
    workersInOrder.SameContent workersSwapped ∧
      workersInOrder.computeDigest ≠ workersSwapped.computeDigest := by
  refine ⟨⟨by decide +kernel, by decide +kernel, fun hsame => ?_⟩, ⟨⟨rfl, rfl, rfl, rfl⟩, rfl, ?_⟩,
    by decide +kernel⟩
  · exact absurd hsame.batchRefs.length_eq (by decide)
  · exact List.Perm.swap _ _ _

/-- References to two batches, either way round. -/
def batchesInOrder : Header := idealHeader 0 0 [⟨7, 0, 0⟩, ⟨8, 0, 0⟩] [] 0

def batchesSwapped : Header := idealHeader 0 0 [⟨8, 0, 0⟩, ⟨7, 0, 0⟩] [] 0

theorem computeDigest_binds_content_iff_swapped :
    batchesInOrder.batchRefs ≠ batchesSwapped.batchRefs ∧
      ∀ _ : SliceSort, batchesInOrder.computeDigest = batchesSwapped.computeDigest ↔
        batchesInOrder.SameContent batchesSwapped := by
  have hsame : batchesInOrder.SameContent batchesSwapped :=
    ⟨⟨rfl, rfl, rfl, rfl⟩, rfl, List.Perm.swap _ _ _⟩
  have hdiffer : batchesInOrder.DigestsDiffer := by
    unfold Header.DigestsDiffer
    decide
  have hcf : ∀ _ : SliceSort,
      CollisionFree [batchesInOrder.encode, batchesSwapped.encode] := by
    intro sorter x hx y hy _
    rw [hsame.encode_eq (.inr hdiffer)] at hx hy
    simp only [List.mem_cons, List.not_mem_nil, or_false, or_self] at hx hy
    rw [hx, hy]
  refine ⟨by decide, (Header.computeDigest_binds_content_iff _ _ hcf).mpr
    ⟨fun _ => .inr hdiffer, fun hreads => ?_, fun hreads => ?_⟩⟩
  · exact absurd hreads.length_lt (by decide)
  · exact absurd hreads.length_lt (by decide)

end

end DagMempool
