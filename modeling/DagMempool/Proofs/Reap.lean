import DagMempool.Lib.Prefix
import DagMempool.Node.Ideal
import DagMempool.Proofs.CertificateWrites
import DagMempool.Proofs.OrderedCertificates

/-!
# What a proposer reaps

`ReapCertifiedBatches` is three nested loops with a set of digests seen, a running
total and an early return. What it is for is simpler: of all batches that
certificates above the committed round refer to, in the order of the certificates,
those that are stored, each once, as many as fit. `reapable` and `reaped` say that
without loops or machine integers, and the theorem of this module is that the node
computes it.

The sizes are added in `int64`, so the two agree as long as the bytes of everything
that could be returned do not overflow it.
-/

namespace DagMempool

def Batch.bytes (b : Batch) : Nat := (b.transactions.map (·.size)).sum

theorem Batch.size_eq_ofNat (b : Batch) : b.size = Int64.ofNat b.bytes := by
  have hfold : ∀ (txs : List Transaction) (n : Nat),
      txs.foldl (fun total tx => total + Int64.ofNat tx.size) (Int64.ofNat n) =
        Int64.ofNat (n + (txs.map (·.size)).sum) := by
    intro txs
    induction txs with
    | nil => intro n; rfl
    | cons tx txs ih =>
      intro n
      rw [List.foldl_cons, ← Int64.ofNat_add, ih, List.map_cons, List.sum_cons, Nat.add_assoc]
  rw [bytes, ← Nat.zero_add (List.sum _), ← hfold]
  rfl

/-! ## The reference

The batches to be returned, as lists: references of certificates in order, those whose batch is
stored, each digest once, and of these a prefix. -/

/-- A reference whose batch is stored. -/
structure Entry where
  digest : Hash
  certified : CertifiedBatch

def Entry.bytes (e : Entry) : Nat := e.certified.batch.bytes

/-- The references of the certificates, in order. -/
def batchRefsOf (certs : List Certificate) : List (Certificate × BatchDigest) :=
  certs.flatMap fun cert => cert.header.batchRefs.map fun ref => (cert, ref)

def storedEntries {BS : Type} [BatchStore BS] (batchStore : BS)
    (refs : List (Certificate × BatchDigest)) : List Entry :=
  refs.filterMap fun r =>
    (BatchStore.getBatch batchStore r.2.digest).toOption.map fun batch =>
      { digest := r.2.digest, certified := { batch, certificate := r.1 } }

/-- Above the committed round, or any round when nothing was committed. -/
def Dag.uncommitted (d : Dag) (round : UInt64) : Bool :=
  !d.hasCommitted || decide (d.committedRound < round)

/-- The certificates of the uncommitted rounds, by round and then by author. -/
def Dag.uncommittedCertificates (d : Dag) : List Certificate :=
  Certificate.inOrder (d.certificates.filter fun c =>
    d.uncommitted c.round && decide (c.round ≤ d.highestRound))

/-- Everything that could be returned, each digest once. -/
def reapable {BS : Type} [BatchStore BS] (d : Dag) (batchStore : BS) : List Entry :=
  Prefix.firsts Entry.digest (storedEntries batchStore (batchRefsOf d.uncommittedCertificates))

/-- As much of it as fits, and the first batch in any case. -/
def reaped {BS : Type} [BatchStore BS] (d : Dag) (batchStore : BS) (maxBytes : Int64) :
    List CertifiedBatch :=
  (Prefix.longest Entry.bytes maxBytes.toInt (reapable d batchStore)).map (·.certified)

theorem storedEntries_cons {BS : Type} [BatchStore BS] (batchStore : BS) (cert : Certificate)
    (ref : BatchDigest) (refs : List (Certificate × BatchDigest)) :
    storedEntries batchStore ((cert, ref) :: refs) =
      match BatchStore.getBatch batchStore ref.digest with
      | .error _ => storedEntries batchStore refs
      | .ok batch =>
        { digest := ref.digest, certified := { batch, certificate := cert } } ::
          storedEntries batchStore refs := by
  rw [storedEntries, List.filterMap_cons]
  cases BatchStore.getBatch batchStore ref.digest with
  | error err => rfl
  | ok batch => rfl

theorem mem_storedEntries {BS : Type} [BatchStore BS] {batchStore : BS}
    {certs : List Certificate} {e : Entry}
    (h : e ∈ storedEntries batchStore (batchRefsOf certs)) :
    e.certified.certificate ∈ certs ∧
      (∃ ref ∈ e.certified.certificate.header.batchRefs, ref.digest = e.digest) ∧
      BatchStore.getBatch batchStore e.digest = .ok e.certified.batch := by
  obtain ⟨⟨cert, ref⟩, hmem, heq⟩ := List.mem_filterMap.mp h
  obtain ⟨cert', hcert, hmem⟩ := List.mem_flatMap.mp hmem
  obtain ⟨ref', href, hpair⟩ := List.mem_map.mp hmem
  cases hpair
  cases hget : BatchStore.getBatch batchStore ref.digest with
  | error err =>
    rw [hget] at heq
    exact absurd heq (by simp [Except.toOption])
  | ok batch =>
    rw [hget] at heq
    cases heq
    exact ⟨hcert, ⟨ref, href, rfl⟩, hget⟩

theorem storedEntries_congr {BS BS' : Type} [BatchStore BS] [BatchStore BS'] {batchStore : BS}
    {batchStore' : BS'} {certs : List Certificate}
    (h : ∀ c ∈ certs, ∀ ref ∈ c.header.batchRefs,
      (BatchStore.getBatch batchStore ref.digest).toOption =
        (BatchStore.getBatch batchStore' ref.digest).toOption) :
    storedEntries batchStore (batchRefsOf certs) =
      storedEntries batchStore' (batchRefsOf certs) := by
  refine List.filterMap_congr fun r hr => ?_
  obtain ⟨c, hc, hr⟩ := List.mem_flatMap.mp hr
  obtain ⟨ref, href, rfl⟩ := List.mem_map.mp hr
  rw [h c hc ref href]

/-! ## The loops

The three loops are one over the references, with the digests seen and the total so far. -/

section

variable {BS : Type} [BatchStore BS] (batchStore : BS) (maxBytes : Int64)

theorem lt_add_size {n : Nat} {batch : Batch} (h : n + batch.bytes < 2 ^ 63) :
    maxBytes < Int64.ofNat n + batch.size ↔ ¬ ((n + batch.bytes : Nat) : Int) ≤ maxBytes.toInt := by
  rw [batch.size_eq_ofNat]
  exact Prefix.lt_ofNat_add_iff h

theorem reapLoop_of_pos (refs : List (Certificate × BatchDigest)) (seen : List Hash) (n : Nat)
    (result : List CertifiedBatch) (hpos : 0 < result.length)
    (hbytes : n + Prefix.total Entry.bytes ((Prefix.firsts Entry.digest
      (storedEntries batchStore refs)).filter fun e => decide (e.digest ∉ seen)) < 2 ^ 63) :
    Looseberry.reapLoop batchStore maxBytes refs seen (Int64.ofNat n) result =
      result ++ (Prefix.within Entry.bytes maxBytes.toInt n ((Prefix.firsts Entry.digest
        (storedEntries batchStore refs)).filter fun e => decide (e.digest ∉ seen))).map
          (·.certified) := by
  induction refs generalizing seen n result with
  | nil => exact (List.append_nil result).symm
  | cons r refs ih =>
    obtain ⟨cert, ref⟩ := r
    rw [storedEntries_cons] at hbytes ⊢
    rw [Looseberry.reapLoop]
    split
    · next hseen =>
        have hseen : ref.digest ∈ seen := List.contains_iff_mem.mp hseen
        cases hget : BatchStore.getBatch batchStore ref.digest with
        | error err =>
          rw [hget] at hbytes
          exact ih seen n result hpos hbytes
        | ok batch =>
          rw [hget] at hbytes
          have hseen : Entry.digest ⟨ref.digest, ⟨batch, cert⟩⟩ ∈ seen := hseen
          rw [Prefix.filter_firsts_of_mem hseen] at hbytes ⊢
          exact ih seen n result hpos hbytes
    · next hfresh =>
        have hfresh : ref.digest ∉ seen := fun h => hfresh (List.contains_iff_mem.mpr h)
        cases hget : BatchStore.getBatch batchStore ref.digest with
        | error err =>
          rw [hget] at hbytes
          exact ih seen n result hpos hbytes
        | ok batch =>
          rw [hget] at hbytes
          dsimp only at hbytes ⊢
          have hfresh : Entry.digest ⟨ref.digest, ⟨batch, cert⟩⟩ ∉ seen := hfresh
          rw [Prefix.filter_firsts_of_notMem hfresh] at hbytes ⊢
          rw [Prefix.total_cons, ← Nat.add_assoc] at hbytes
          have hsize : n + batch.bytes < 2 ^ 63 :=
            Nat.lt_of_le_of_lt (Nat.le_add_right _ _) hbytes
          rw [Prefix.within]
          split
          · next hfull =>
              have hnot : ¬ ((n + Entry.bytes ⟨ref.digest, ⟨batch, cert⟩⟩ : Nat) : Int) ≤
                  maxBytes.toInt := (lt_add_size maxBytes hsize).mp hfull.1
              rw [if_neg hnot, List.map_nil, List.append_nil]
          · next hfits =>
              have hle : ((n + Entry.bytes ⟨ref.digest, ⟨batch, cert⟩⟩ : Nat) : Int) ≤
                  maxBytes.toInt := by
                by_contra hnot
                exact hfits ⟨(lt_add_size maxBytes hsize).mpr hnot, hpos⟩
              rw [batch.size_eq_ofNat, ← Int64.ofNat_add, if_pos hle]
              rw [ih (ref.digest :: seen) (n + batch.bytes) _ (by simp) hbytes,
                List.append_assoc]
              rfl

theorem reapLoop_eq (refs : List (Certificate × BatchDigest))
    (hbytes : Prefix.total Entry.bytes
      (Prefix.firsts Entry.digest (storedEntries batchStore refs)) < 2 ^ 63) :
    Looseberry.reapLoop batchStore maxBytes refs [] 0 [] =
      (Prefix.longest Entry.bytes maxBytes.toInt
        (Prefix.firsts Entry.digest (storedEntries batchStore refs))).map (·.certified) := by
  induction refs with
  | nil => rfl
  | cons r refs ih =>
    obtain ⟨cert, ref⟩ := r
    rw [storedEntries_cons] at hbytes ⊢
    rw [Looseberry.reapLoop, if_neg (by simp)]
    cases hget : BatchStore.getBatch batchStore ref.digest with
    | error err =>
      rw [hget] at hbytes
      exact ih hbytes
    | ok batch =>
      rw [hget] at hbytes
      dsimp only at hbytes ⊢
      have hrest : (Prefix.firsts Entry.digest (storedEntries batchStore refs)).filter
          (fun e => decide (e.digest ≠ ref.digest)) =
          (Prefix.firsts Entry.digest (storedEntries batchStore refs)).filter
            fun e => decide (e.digest ∉ [ref.digest]) := by simp
      rw [Prefix.firsts] at hbytes ⊢
      rw [hrest] at hbytes ⊢
      have hloop := reapLoop_of_pos batchStore maxBytes refs [ref.digest] batch.bytes
        [{ batch, certificate := cert }] (by simp) hbytes
      rw [if_neg (by simp), Int64.zero_add, batch.size_eq_ofNat, Prefix.longest_cons]
      exact hloop

end

namespace Dag

theorem Shaped.pairwise_certificates {d : Dag} (h : d.Shaped) :
    d.certificates.Pairwise fun a b => ¬ (a.round = b.round ∧ a.author = b.author) := by
  have hround : ∀ e ∈ d.rounds.entries, ∀ c ∈ e.2.certificates.values, c.round = e.1 :=
    fun e he c hc => ((h.mem_values (GoMap.get_eq_some.mpr he)).mp hc).2
  rw [certificates, List.pairwise_flatMap, GoMap.values, List.pairwise_map, List.forall_mem_map]
  refine ⟨fun e he => ?_, ?_⟩
  · exact (List.pairwise_map.mp (h.authors (GoMap.get_eq_some.mpr he))).imp
      fun hne hsame => hne hsame.2
  · refine (List.pairwise_map.mp d.rounds.nodup_keys).imp_of_mem ?_
    intro e e' he he' hne a ha b hb hsame
    exact hne ((hround e he a ha).symm.trans (hsame.1.trans (hround e' he' b hb)))

section

variable {CS : Type} [CertificateStore CS] {d : Dag}

theorem Shaped.mem_getCertificatesForRound (h : d.Shaped) (certStore : CS)
    (order : IterOrder Certificate) {r : UInt64} (hr : d.rounds.has r = true)
    {c : Certificate} :
    c ∈ d.getCertificatesForRound certStore order r ↔ c ∈ d.certificates ∧ c.round = r := by
  obtain ⟨rd, hrd⟩ := GoMap.has_iff.mp hr
  rw [getCertificatesForRound, hrd]
  exact order.mem_arrange.trans (h.mem_values hrd)

theorem Shaped.listsRound (h : d.Shaped) (certStore : CS) (order : IterOrder Certificate)
    {r : UInt64} (hr : d.rounds.has r = true) : d.ListsRound certStore order r := by
  refine ⟨fun c hc => ((h.mem_getCertificatesForRound certStore order hr).mp hc).2, ?_⟩
  obtain ⟨rd, hrd⟩ := GoMap.has_iff.mp hr
  rw [getCertificatesForRound, hrd]
  exact ((order.perm rd.certificates.values).map _).nodup_iff.mpr (h.authors hrd)

theorem mem_uncommittedCertificates {c : Certificate} :
    c ∈ d.uncommittedCertificates ↔
      c ∈ d.certificates ∧ d.uncommitted c.round = true ∧ c.round ≤ d.highestRound := by
  rw [uncommittedCertificates, Certificate.mem_inOrder, List.mem_filter, Bool.and_eq_true,
    decide_eq_true_eq]

theorem Shaped.getOrderedCertificates_eq [SliceSort] (h : d.Shaped) (certStore : CS)
    (order : IterOrder Certificate) {fromRound : UInt64}
    (hfrom : ∀ r, r ≤ d.highestRound → (fromRound ≤ r ↔ d.uncommitted r = true))
    (hlast : d.highestRound.toNat < 2 ^ 64 - 1)
    (hmem : ∀ r, d.uncommitted r = true → r ≤ d.highestRound → d.rounds.has r = true) :
    d.getOrderedCertificates certStore order fromRound d.highestRound =
      some d.uncommittedCertificates := by
  obtain ⟨certs, heq, hsorted, hcerts⟩ := getOrderedCertificates_spec hlast
    (fun r hle hr => h.listsRound certStore order (hmem r ((hfrom r hr).mp hle) hr))
  have hpairwise : d.uncommittedCertificates.Pairwise Certificate.Before :=
    Certificate.pairwise_inOrder (h.pairwise_certificates.sublist List.filter_sublist)
  rw [heq, Certificate.eq_of_pairwise_before hsorted hpairwise fun c => ?_]
  rw [hcerts, mem_uncommittedCertificates]
  constructor
  · rintro ⟨⟨hle, hr⟩, hc⟩
    have hun := (hfrom _ hr).mp hle
    exact ⟨((h.mem_getCertificatesForRound certStore order (hmem _ hun hr)).mp hc).1, hun, hr⟩
  · rintro ⟨hc, hun, hr⟩
    refine ⟨⟨(hfrom _ hr).mpr hun, hr⟩, ?_⟩
    exact (h.mem_getCertificatesForRound certStore order (hmem _ hun hr)).mpr ⟨hc, rfl⟩

end

end Dag

namespace Looseberry

variable [Crypto] {BS CS TI : Type} [BatchStore BS] [CertificateStore CS]

theorem reapCertifiedBatches_eq [SliceSort] {l : Looseberry BS CS TI} (h : l.dag.Shaped)
    (hlast : l.dag.highestRound.toNat < 2 ^ 64 - 1)
    (hmem : ∀ r, l.dag.uncommitted r = true → r ≤ l.dag.highestRound →
      l.dag.rounds.has r = true)
    (hbytes : Prefix.total Entry.bytes (reapable l.dag l.batchStore) < 2 ^ 63) (env : Env)
    (maxBytes : Int64) :
    l.reapCertifiedBatches env maxBytes = some (reaped l.dag l.batchStore maxBytes) := by
  unfold reapCertifiedBatches
  dsimp only
  split
  · next hdone =>
      simp only [Bool.and_eq_true, decide_eq_true_eq] at hdone
      have hnone : l.dag.uncommittedCertificates = [] := by
        refine List.eq_nil_iff_forall_not_mem.mpr fun c hc => ?_
        obtain ⟨-, hun, hr⟩ := Dag.mem_uncommittedCertificates.mp hc
        simp only [Dag.uncommitted, hdone.1, Bool.not_true, Bool.false_or,
          decide_eq_true_eq] at hun
        exact UInt64.not_lt.mpr (UInt64.le_trans hr hdone.2) hun
      rw [reaped, reapable, hnone]
      rfl
  · next hopen =>
      -- The first round to look at is the first that is not committed.
      have hfrom : ∀ r, r ≤ l.dag.highestRound →
          ((if l.dag.hasCommitted then l.dag.committedRound + 1 else 0) ≤ r ↔
            l.dag.uncommitted r = true) := by
        intro r hr
        cases hc : l.dag.hasCommitted with
        | false => simp [Dag.uncommitted, hc]
        | true =>
          simp only [hc, Bool.true_and, decide_eq_true_eq, UInt64.le_iff_toNat_le] at hopen
          have hsucc : (l.dag.committedRound + 1).toNat = l.dag.committedRound.toNat + 1 :=
            toNat_succ (by omega)
          simp only [Dag.uncommitted, hc, if_true, Bool.not_true, Bool.false_or,
            decide_eq_true_eq, UInt64.le_iff_toNat_le, UInt64.lt_iff_toNat_lt, hsucc]
          omega
      rw [h.getOrderedCertificates_eq l.certStore env.gc.certs hfrom hlast hmem]
      exact congrArg some (reapLoop_eq l.batchStore maxBytes _ hbytes)

variable [SliceSort] [TxIndex TI]

/-- In every state of every run, and whatever the batch store holds: what is reaped is
what the reference says. So no batch is listed twice, nothing committed is listed, and
a larger limit only adds to the list. -/
theorem reap_meets_reference [LawfulBatchStore BS] {l : Looseberry BS CS TI}
    {log : List Output} (h : Reach (fun _ => True) (fun _ _ _ => True) l log)
    (batchStore : BS) (hlast : l.dag.highestRound.toNat < 2 ^ 64 - 1)
    (hmem : ∀ r, l.dag.uncommitted r = true → r ≤ l.dag.highestRound →
      l.dag.rounds.has r = true)
    (hbytes : Prefix.total Entry.bytes (reapable l.dag batchStore) < 2 ^ 63) (env : Env)
    (maxBytes : Int64) :
    ∃ result, { l with batchStore }.reapCertifiedBatches env maxBytes = some result ∧
      result = reaped l.dag batchStore maxBytes ∧
      (result.map (·.batch.digest)).Nodup ∧
      (∀ cb ∈ result, l.dag.uncommitted cb.certificate.round = true) ∧
      ∀ env' maxBytes', maxBytes ≤ maxBytes' →
        ∃ result', { l with batchStore }.reapCertifiedBatches env' maxBytes' = some result' ∧
          result <+: result' := by
  have hshaped : l.dag.Shaped := shaped_of_reach h
  have hreap : ∀ env maxBytes, { l with batchStore }.reapCertifiedBatches env maxBytes =
      some (reaped l.dag batchStore maxBytes) :=
    reapCertifiedBatches_eq (l := { l with batchStore }) hshaped hlast hmem hbytes
  have hsub := (Prefix.longest_prefix Entry.bytes maxBytes.toInt
    (reapable l.dag batchStore)).sublist
  have hentry : ∀ e ∈ reapable l.dag batchStore,
      e.certified.certificate ∈ l.dag.uncommittedCertificates ∧
        e.certified.batch.digest = e.digest := by
    intro e he
    obtain ⟨hcert, -, hget⟩ := mem_storedEntries ((Prefix.firsts_sublist _ _).subset he)
    exact ⟨hcert, LawfulBatchStore.digest_eq hget⟩
  refine ⟨reaped l.dag batchStore maxBytes, hreap env maxBytes, rfl, ?_, fun cb hcb => ?_,
    fun env' maxBytes' hle => ?_⟩
  · have hdigests : (reaped l.dag batchStore maxBytes).map (·.batch.digest) =
        (Prefix.longest Entry.bytes maxBytes.toInt (reapable l.dag batchStore)).map
          Entry.digest := by
      rw [reaped, List.map_map]
      exact List.map_congr_left fun e he => (hentry e (hsub.subset he)).2
    rw [hdigests]
    exact (Prefix.nodup_firsts Entry.digest _).sublist (hsub.map _)
  · obtain ⟨e, he, rfl⟩ := List.mem_map.mp hcb
    exact (Dag.mem_uncommittedCertificates.mp (hentry e (hsub.subset he)).1).2.1
  · refine ⟨_, hreap env' maxBytes', ?_⟩
    rw [Int64.le_iff_toInt_le] at hle
    exact (Prefix.longest_prefix_longest Entry.bytes hle _).map _

/-- The uncommitted rounds are in memory, and are not the last there can be. -/
structure Loaded (d : Dag) : Prop where
  last : d.highestRound.toNat < 2 ^ 64 - 1
  rounds : ∀ r, d.uncommitted r = true → r ≤ d.highestRound → d.rounds.has r = true

variable {BS' CS' TI' : Type} [BatchStore BS'] [CertificateStore CS'] [TxIndex TI']

/-- Two nodes with the same uncommitted certificates, and the same of the batches these refer
to, reap the same list, whatever happened to each of them. -/
theorem reap_agrees {l : Looseberry BS CS TI} {l' : Looseberry BS' CS' TI'}
    {log log' : List Output} (h : Reach (fun _ => True) (fun _ _ _ => True) l log)
    (h' : Reach (fun _ => True) (fun _ _ _ => True) l' log') (hloaded : Loaded l.dag)
    (hloaded' : Loaded l'.dag)
    (hcerts : ∀ c, c ∈ l.dag.uncommittedCertificates ↔ c ∈ l'.dag.uncommittedCertificates)
    (hbatches : ∀ c ∈ l.dag.uncommittedCertificates, ∀ ref ∈ c.header.batchRefs,
      (BatchStore.getBatch l.batchStore ref.digest).toOption =
        (BatchStore.getBatch l'.batchStore ref.digest).toOption)
    (hbytes : Prefix.total Entry.bytes (reapable l.dag l.batchStore) < 2 ^ 63)
    (env env' : Env) (maxBytes : Int64) :
    ∃ result, l.reapCertifiedBatches env maxBytes = some result ∧
      l'.reapCertifiedBatches env' maxBytes = some result := by
  have hpairwise : ∀ {d : Dag}, d.Shaped →
      d.uncommittedCertificates.Pairwise Certificate.Before := fun hd =>
    Certificate.pairwise_inOrder (hd.pairwise_certificates.sublist List.filter_sublist)
  have hshaped := shaped_of_reach h
  have hshaped' := shaped_of_reach h'
  have hentries : reapable l'.dag l'.batchStore = reapable l.dag l.batchStore := by
    rw [reapable, reapable, storedEntries_congr hbatches,
      Certificate.eq_of_pairwise_before (hpairwise hshaped) (hpairwise hshaped') hcerts]
  refine ⟨_, reapCertifiedBatches_eq hshaped hloaded.last hloaded.rounds hbytes env maxBytes, ?_⟩
  rw [reapCertifiedBatches_eq hshaped' hloaded'.last hloaded'.rounds (hentries ▸ hbytes), reaped,
    reaped, hentries]

end Looseberry

section

open IdealScheme

def oneByteBatch (byte : UInt8) : Batch := .new 0 0 0 [[byte]] 0

/-- Two batches, the first of which two validators refer to. -/
def sharedBatch : List Event :=
  [.batchMessage (oneByteBatch 1) 1, .batchMessage (oneByteBatch 2) 1,
    .certificateMessage (votedCertificate 1 0 [(oneByteBatch 1).getDigest] []),
    .certificateMessage (votedCertificate 2 0
      [(oneByteBatch 1).getDigest, (oneByteBatch 2).getDigest] [])]

theorem reap_meets_reference_shared_batch :
    ∃ (l : IdealNode) (log : List Output) (result : List CertifiedBatch),
      Looseberry.Reach (fun _ => True) (fun _ _ _ => True) l log ∧
      l.reapCertifiedBatches (idealEnv 9) 1 = some result ∧
      result.map (·.batch) = [oneByteBatch 1] ∧
      ∃ result', l.reapCertifiedBatches (idealEnv 9) 2 = some result' ∧ result <+: result' := by
  have hrun : Looseberry.Reach (fun _ => True) (fun _ _ _ => True)
      (idealExec 0 10 sharedBatch).1 (idealExec 0 10 sharedBatch).2 :=
    reach_idealExec 0 10 sharedBatch trivial (.of_forall (fun _ _ _ => trivial) _ _ _)
  have hhighest : (idealExec 0 10 sharedBatch).1.dag.highestRound = 0 := by decide +kernel
  have hhas : (idealExec 0 10 sharedBatch).1.dag.rounds.has 0 = true := by decide +kernel
  have hbytes : Prefix.total Entry.bytes (reapable (idealExec 0 10 sharedBatch).1.dag
      (idealExec 0 10 sharedBatch).1.batchStore) < 2 ^ 63 := by decide +kernel
  have hfirst : (reaped (idealExec 0 10 sharedBatch).1.dag
      (idealExec 0 10 sharedBatch).1.batchStore 1).map (·.batch) = [oneByteBatch 1] := by
    decide +kernel
  generalize idealExec 0 10 sharedBatch = e at hrun hhighest hhas hbytes hfirst
  obtain ⟨result, hreap, heq, -, -, hmore⟩ := Looseberry.reap_meets_reference hrun
    e.1.batchStore (by simp [hhighest])
    (fun r _ hr => by
      rw [hhighest, UInt64.le_iff_toNat_le] at hr
      rw [show r = 0 from UInt64.toNat_inj.mp (Nat.le_zero.mp hr)]
      exact hhas)
    hbytes (idealEnv 9) 1
  exact ⟨e.1, e.2, result, hrun, hreap, by rw [heq]; exact hfirst,
    hmore (idealEnv 9) 2 (by decide)⟩

/-- Another validator gets the certificates before the batches. -/
theorem reap_agrees_reversed :
    ∃ result,
      (idealExec 0 10 sharedBatch).1.reapCertifiedBatches (idealEnv 9) 1 = some result ∧
      (idealExec 3 10 sharedBatch.reverse).1.reapCertifiedBatches (idealEnv 7) 1 =
        some result := by
  have hloaded : ∀ {d : Dag}, d.highestRound = 0 → d.rounds.has 0 = true →
      Looseberry.Loaded d := by
    intro d hhighest hhas
    refine ⟨by simp [hhighest], fun r _ hr => ?_⟩
    rw [hhighest, UInt64.le_iff_toNat_le] at hr
    rw [show r = 0 from UInt64.toNat_inj.mp (Nat.le_zero.mp hr)]
    exact hhas
  have hcerts : (idealExec 0 10 sharedBatch).1.dag.uncommittedCertificates =
      (idealExec 3 10 sharedBatch.reverse).1.dag.uncommittedCertificates := by decide +kernel
  exact Looseberry.reap_agrees
    (reach_idealExec _ _ _ trivial (.of_forall (fun _ _ _ => trivial) _ _ _))
    (reach_idealExec _ _ _ trivial (.of_forall (fun _ _ _ => trivial) _ _ _))
    (hloaded (by decide +kernel) (by decide +kernel))
    (hloaded (by decide +kernel) (by decide +kernel)) (fun c => by rw [hcerts])
    (by decide +kernel) (by decide +kernel) _ _ _

end

end DagMempool
