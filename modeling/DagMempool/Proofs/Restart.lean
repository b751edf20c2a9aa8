import DagMempool.Proofs.CommitProgress
import DagMempool.Proofs.SyncWindow
import DagMempool.Store.Ideal
import DagMempool.Store.LevelDBBatch
import DagMempool.Store.LevelDBTxIndex

/-!
# What is left after a restart

A node starts with a new DAG, and nothing on the way of starting reads the certificate store:
`LoadRoundsFrom` would put back what it lists (`Dag.loadRoundsFrom_spec`), but nobody calls
it. So the highest round is `0` again whatever it was. Certificates are still found in the
store, round by round, but reaping asks for rounds up to the highest only, and that leaves
the first round. A batch is returned after a restart exactly if a certificate of the first
round refers to it.
-/

namespace DagMempool

namespace Looseberry

def unlimited : Int64 := 9223372036854775807

variable [Crypto] [SliceSort] {BS CS TI : Type} [BatchStore BS] [CertificateStore CS]

/-- Reaping without a limit returns the batch. -/
def Returns (l : Looseberry BS CS TI) (env : Env) (b : Batch) : Prop :=
  ∃ batches, l.reapCertifiedBatches env unlimited = some batches ∧
    ∃ cb ∈ batches, cb.batch = b

instance (l : Looseberry BS CS TI) (env : Env) (b : Batch) : Decidable (l.Returns env b) :=
  decidable_of_iff (∃ batches ∈ l.reapCertifiedBatches env unlimited,
    ∃ cb ∈ batches, cb.batch = b) Iff.rfl

/-- One node returns what another does and has come as far. -/
structure KeepsWork (l : Looseberry BS CS TI) (env : Env) (l' : Looseberry BS CS TI)
    (env' : Env) : Prop where
  highestRound : l'.dag.highestRound = l.dag.highestRound
  returns : ∀ b, l.Returns env b → l'.Returns env' b

/-! ## The first round

A DAG with nothing in it answers for a round from the store, and it is asked for round `0` alone.
-/

/-- A batch that certificates of the first round refer to, in the stores. -/
def InFirstRound (batchStore : BS) (certStore : CS) (b : Batch) : Prop :=
  ∃ c ∈ listedCertificates certStore 0, ∃ ref ∈ c.header.batchRefs,
    BatchStore.getBatch batchStore ref.digest = .ok b

variable {batchStore : BS} {certs : List Certificate} {b : Batch}

omit [Crypto] [SliceSort] [CertificateStore CS] in
theorem mem_storedEntries_of {c : Certificate} (hc : c ∈ certs) {ref : BatchDigest}
    (href : ref ∈ c.header.batchRefs) (hb : BatchStore.getBatch batchStore ref.digest = .ok b) :
    ⟨ref.digest, ⟨b, c⟩⟩ ∈ storedEntries batchStore (batchRefsOf certs) := by
  refine List.mem_filterMap.mpr ⟨(c, ref), ?_, by rw [hb]; rfl⟩
  exact List.mem_flatMap.mpr ⟨c, hc, List.mem_map.mpr ⟨ref, href, rfl⟩⟩

omit [Crypto] [SliceSort] [CertificateStore CS] in
theorem exists_mem_reapLoop_iff
    (hbytes : Prefix.total Entry.bytes (storedEntries batchStore (batchRefsOf certs)) < 2 ^ 63) :
    (∃ cb ∈ reapLoop batchStore unlimited (batchRefsOf certs) [] 0 [], cb.batch = b) ↔
      ∃ c ∈ certs, ∃ ref ∈ c.header.batchRefs,
        BatchStore.getBatch batchStore ref.digest = .ok b := by
  have hsub := Prefix.firsts_sublist Entry.digest (storedEntries batchStore (batchRefsOf certs))
  have htotal := Nat.lt_of_le_of_lt (Prefix.total_le_of_sublist Entry.bytes hsub) hbytes
  have hlimit : unlimited.toInt = 2 ^ 63 - 1 := by decide
  rw [reapLoop_eq batchStore unlimited _ htotal, Prefix.longest_eq_self _ (by omega)]
  constructor
  · rintro ⟨cb, hcb, rfl⟩
    obtain ⟨e, he, rfl⟩ := List.mem_map.mp hcb
    obtain ⟨hc, ⟨ref, href, hdigest⟩, hget⟩ := mem_storedEntries (hsub.subset he)
    exact ⟨_, hc, ref, href, hdigest ▸ hget⟩
  · rintro ⟨c, hc, ref, href, hget⟩
    obtain ⟨e, he, hdigest⟩ :=
      Prefix.exists_mem_firsts Entry.digest (mem_storedEntries_of hc href hget)
    obtain ⟨-, -, hget'⟩ := mem_storedEntries (hsub.subset he)
    rw [hdigest, hget] at hget'
    exact ⟨e.certified, List.mem_map.mpr ⟨e, he, rfl⟩, (Except.ok.inj hget').symm⟩

omit [Crypto] in
theorem getOrderedCertificates_new (cfg : DagConfig) (certStore : CS)
    (order : IterOrder Certificate) :
    ∃ certs, (Dag.new cfg).getOrderedCertificates certStore order 0 0 = some certs ∧
      certs.Perm (listedCertificates certStore 0) := by
  refine ⟨_, Dag.getOrderedCertificates_eq _ certStore order 0 (by decide), ?_⟩
  have hrounds : roundsFrom 0 (0 + 1) = [0] := rfl
  rw [hrounds, List.flatMap_singleton,
    ← Dag.getCertificatesForRound_of_none (d := Dag.new cfg) (GoMap.get_empty 0) certStore order]
  exact SliceSort.perm _ _

theorem reapCertifiedBatches_of_uncommitted {l : Looseberry BS CS TI}
    (hcommitted : l.dag.hasCommitted = false) {env : Env}
    (hcerts : l.dag.getOrderedCertificates l.certStore env.gc.certs 0 l.dag.highestRound =
      some certs) (maxBytes : Int64) :
    l.reapCertifiedBatches env maxBytes =
      some (reapLoop l.batchStore maxBytes (batchRefsOf certs) [] 0 []) := by
  unfold reapCertifiedBatches
  simp only [hcommitted, Bool.false_and, Bool.false_eq_true, if_false]
  rw [hcerts]
  rfl

theorem returns_start_iff {cfg : Config} {vs : SimpleValidatorSet} {certStore : CS} {txIndex : TI}
    {now : Int} (env : Env) (hbytes : Prefix.total Entry.bytes
      (storedEntries batchStore (batchRefsOf (listedCertificates certStore 0))) < 2 ^ 63) :
    (start cfg vs batchStore certStore txIndex now).Returns env b ↔
      InFirstRound batchStore certStore b := by
  obtain ⟨certs, hcerts, hperm⟩ := getOrderedCertificates_new
    { maxHistoryDepth := 1000, maxHistoryCacheSize := 1000 } certStore env.gc.certs
  have hreap : (start cfg vs batchStore certStore txIndex now).reapCertifiedBatches env
      unlimited = some (reapLoop batchStore unlimited (batchRefsOf certs) [] 0 []) :=
    reapCertifiedBatches_of_uncommitted rfl hcerts unlimited
  have hentries : (storedEntries batchStore (batchRefsOf certs)).Perm
      (storedEntries batchStore (batchRefsOf (listedCertificates certStore 0))) :=
    (hperm.flatMap_right _).filterMap _
  rw [← Prefix.total_of_perm _ hentries] at hbytes
  rw [Returns, hreap]
  simp only [Option.some.injEq, exists_eq_left', exists_mem_reapLoop_iff hbytes, hperm.mem_iff]
  rfl

theorem Returns.inFirstRound {l : Looseberry BS CS TI} {env : Env} (h : l.Returns env b)
    (hhighest : l.dag.highestRound = 0)
    (hlisted : ∀ c ∈ l.dag.getCertificatesForRound l.certStore .listed 0,
      c ∈ listedCertificates l.certStore 0) : InFirstRound l.batchStore l.certStore b := by
  obtain ⟨batches, hreap, cb, hcb, rfl⟩ := h
  unfold reapCertifiedBatches at hreap
  dsimp only at hreap
  rw [hhighest] at hreap
  split at hreap
  · cases hreap
    cases hcb
  · split at hreap
    · cases hreap
    · next certs hcerts =>
        cases hreap
        obtain ⟨ref, href, hget⟩ := (mem_reapLoop hcb).resolve_left (by simp)
        obtain ⟨cert, hcert, hmem⟩ := List.mem_flatMap.mp href
        obtain ⟨ref', href', hpair⟩ := List.mem_map.mp hmem
        cases hpair
        obtain ⟨r, -, hle, hround⟩ :=
          (Dag.mem_getOrderedCertificates_iff (by decide) hcerts).mp hcert
        obtain rfl : r = 0 := UInt64.le_antisymm hle UInt64.zero_le
        have hstored := hlisted _ ((Dag.mem_getCertificatesForRound _).mp hround)
        exact ⟨cb.certificate, hstored, ref, href', hget⟩

section

variable [TxIndex TI] [Closer BS] [Closer CS] [Closer TI] [Reopens BS] [Reopens CS] [Reopens TI]

omit [SliceSort] [Reopens TI] in
theorem InFirstRound.reopened [KeepsBatches BS] [PersistsBatches BS] [PersistsCertificates CS]
    {l : Looseberry BS CS TI} {b : Batch} (h : InFirstRound l.batchStore l.certStore b)
    (now : Int) :
    InFirstRound (Reopens.reopen (l.stop now).batchStore) (Reopens.reopen (l.stop now).certStore)
      b := by
  obtain ⟨c, hc, ref, href, hget⟩ := h
  have hlisted : c ∈ listedCertificates (Reopens.reopen (Closer.close l.certStore).2) 0 := by
    cases hround : CertificateStore.getCertificatesByRound l.certStore 0 with
    | error err =>
      rw [listedCertificates, hround] at hc
      cases hc
    | ok certs =>
      rw [listedCertificates_of_ok hround] at hc
      rw [listedCertificates_of_ok (PersistsCertificates.byRound_reopen hround)]
      exact hc
  have hkept := (l.pool.stop_saved l.batchStore l.txIndex now).keeps hget
  exact ⟨c, hlisted, ref, href, PersistsBatches.get_reopen hkept⟩

/-- Work survives a restart exactly if there is none above the first round, provided that
the store lists what the DAG has of that round. What is returned in any case are the batches
that certificates of the first round refer to. -/
theorem restart_keepsWork_iff [KeepsBatches BS] [PersistsBatches BS] [PersistsCertificates CS]
    (l : Looseberry BS CS TI) (cfg : Config) (vs : SimpleValidatorSet) (now now' : Int)
    (env env' : Env)
    (hlisted : l.dag.highestRound = 0 →
      ∀ c ∈ l.dag.getCertificatesForRound l.certStore .listed 0,
        c ∈ listedCertificates l.certStore 0)
    (hbytes : Prefix.total Entry.bytes (storedEntries
      ((l.stop now).restart cfg vs now').batchStore (batchRefsOf
        (listedCertificates ((l.stop now).restart cfg vs now').certStore 0))) < 2 ^ 63) :
    let l' := (l.stop now).restart cfg vs now'
    (l.KeepsWork env l' env' ↔ l.dag.highestRound = 0) ∧
      ∀ b, l'.Returns env' b ↔ InFirstRound l'.batchStore l'.certStore b := by
  intro l'
  have hreturns : ∀ b, l'.Returns env' b ↔ InFirstRound l'.batchStore l'.certStore b :=
    fun b => returns_start_iff env' hbytes
  have hfresh : l'.dag.highestRound = 0 := rfl
  refine ⟨⟨fun hkeeps => hkeeps.highestRound.symm.trans hfresh, fun hfirst => ?_⟩, hreturns⟩
  refine ⟨hfresh.trans hfirst.symm, fun b hb => (hreturns b).mpr ?_⟩
  exact (hb.inFirstRound hfirst (hlisted hfirst)).reopened now

end

end Looseberry

section

open IdealScheme

attribute [local instance] idealBatchCramberry
  idealCertificateCramberry

/-- A node whose stores are on disk. -/
abbrev DiskNode := Looseberry LevelDBBatchStore LevelDBCertificateStore LevelDBTxIndex

def diskNode : DiskNode :=
  Looseberry.start (idealConfig 0 10) (idealValidators 4 0) .new .new .new 0

def diskExec (events : List Event) : DiskNode × List Output :=
  Run.exec Looseberry.step diskNode [] (idealRun events)

/-- The node after some events, stopped, and a new one in its place. -/
def restarted (events : List Event) : DiskNode :=
  ((diskExec events).1.stop 8).restart (idealConfig 0 10) (idealValidators 4 0) 9

theorem reach_diskExec (events : List Event) :
    Looseberry.Reach (fun _ => True) (fun _ _ _ => True) (diskExec events).1
      (diskExec events).2 :=
  Run.Reach.of_exec ⟨⟨_, _, _, _, _, _, rfl⟩, trivial⟩ (.of_forall (fun _ _ _ => trivial) _ _ _)

def firstRoundWork : List Event :=
  [.batchMessage (oneByteBatch 1) 1,
    .certificateMessage (votedCertificate 1 0 [(oneByteBatch 1).getDigest] [])]

theorem restart_keepsWork_firstRoundWork :
    (diskExec firstRoundWork).1.Returns (idealEnv 7) (oneByteBatch 1) ∧
      (restarted firstRoundWork).Returns (idealEnv 9) (oneByteBatch 1) := by
  have hreturns : (diskExec firstRoundWork).1.Returns (idealEnv 7) (oneByteBatch 1) := by
    decide +kernel
  have hlisted : ∀ c ∈ (diskExec firstRoundWork).1.dag.getCertificatesForRound
      (diskExec firstRoundWork).1.certStore .listed 0,
        c ∈ listedCertificates (diskExec firstRoundWork).1.certStore 0 := by decide +kernel
  obtain ⟨hkeeps, -⟩ := Looseberry.restart_keepsWork_iff (diskExec firstRoundWork).1
    (idealConfig 0 10) (idealValidators 4 0) 8 9 (idealEnv 7) (idealEnv 9) (fun _ => hlisted)
    (by decide +kernel)
  exact ⟨hreturns, (hkeeps.mpr (by decide +kernel)).returns _ hreturns⟩

/-- A batch certified in the round after it, over the certificates of the first. -/
def secondRoundWork : List Event :=
  .batchMessage (oneByteBatch 1) 1 ::
    (votedRound 0 ++ [votedCertificate 1 1 [(oneByteBatch 1).getDigest] (votedRound 0)]).map
      .certificateMessage

/-- The batch is certified and in the store, as is its certificate, and a node that is
started over the stores knows of neither. -/
theorem restart_forgets :
    Looseberry.Reach (fun _ => True) (fun _ _ _ => True) (diskExec secondRoundWork).1
        (diskExec secondRoundWork).2 ∧
      (diskExec secondRoundWork).1.dag.highestRound = 1 ∧
      (diskExec secondRoundWork).1.Returns (idealEnv 7) (oneByteBatch 1) ∧
      (restarted secondRoundWork).dag.highestRound = 0 ∧
      (restarted secondRoundWork).batchStore.hasBatch (oneByteBatch 1).digest = true ∧
      (listedCertificates (restarted secondRoundWork).certStore 1).map (·.digest) =
        [(votedCertificate 1 1 [(oneByteBatch 1).getDigest] (votedRound 0)).digest] ∧
      (restarted secondRoundWork).reapCertifiedBatches (idealEnv 9) Looseberry.unlimited =
        some [] := by
  refine ⟨reach_diskExec _, ?_, ?_, rfl, ?_, ?_, ?_⟩ <;> decide +kernel

end

end DagMempool
