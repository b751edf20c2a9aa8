import DagMempool.Proofs.BatchIntegrity

/-!
# What a collection keeps

A collection deletes batches by their own round, the one stamped on them when they
were made, and everything else goes by the round of certificates. The two are
related only if workers know the round of the DAG. They do not: nothing calls
`Pool.SetRound`, every batch is stamped with round `0`, and once the committed round
has passed the depth of the collection a batch is deleted at the next one, whether
or not a certificate that is still to be committed refers to it.

If stamps are close to the rounds of the certificates, within the depth of the
collection, then what is needed stays.
-/

namespace DagMempool

namespace Looseberry

section

variable [Crypto] [SliceSort] {BS CS TI : Type}
variable [BatchStore BS] [CertificateStore CS] [TxIndex TI]

/-- From one state to the next, no batch is lost to which a certificate above the
committed round refers. -/
def NeededKept (l l' : Looseberry BS CS TI) : Prop :=
  ∀ r a c, l'.dag.slot r a = some c → l'.gc.committedRound < c.round →
    ∀ ref ∈ c.header.batchRefs, ∀ b,
      BatchStore.getBatch l.batchStore ref.digest = .ok b →
        BatchStore.getBatch l'.batchStore ref.digest = .ok b

/-- A stored batch to which a certificate above the committed round refers is stamped
with a round at most one more than the depth of the collection below it. -/
def StampsClose (l : Looseberry BS CS TI) : Prop :=
  ∀ r a c, l.dag.slot r a = some c → l.gc.committedRound < c.round →
    ∀ ref ∈ c.header.batchRefs, ∀ b,
      BatchStore.getBatch l.batchStore ref.digest = .ok b →
        c.round.toNat ≤ b.round.toNat + l.gc.cfg.gcDepth.toNat + 1

instance (l : Looseberry BS CS TI) : Decidable l.StampsClose :=
  decidable_of_iff
    (∀ c ∈ l.dag.certificates, l.gc.committedRound < c.round → ∀ ref ∈ c.header.batchRefs,
      ∀ b ∈ (BatchStore.getBatch l.batchStore ref.digest).toOption,
        c.round.toNat ≤ b.round.toNat + l.gc.cfg.gcDepth.toNat + 1) (by
      constructor
      · intro h r a c hc hlt ref href b hb
        exact h c (Dag.mem_certificates.mpr ⟨r, a, hc⟩) hlt ref href b (toOption_eq_some.mpr hb)
      · intro h c hc hlt ref href b hb
        obtain ⟨r, a, hslot⟩ := Dag.mem_certificates.mp hc
        exact h r a c hslot hlt ref href b (toOption_eq_some.mp hb))

omit [SliceSort] [CertificateStore CS] [TxIndex TI] in
theorem collecting_stampsClose {l m : Looseberry BS CS TI} {ev : Event}
    (h : l.StampsClose) (hm : l.collecting ev = some m) : m.StampsClose := by
  cases ev with
  | gcTick => cases hm; exact h
  | notifyCommitted round =>
    cases hm
    have hgc := l.markCommitted_gc round
    have hle : l.gc.committedRound ≤ (l.markCommitted round).gc.committedRound := by
      rw [hgc]
      split
      · next hlt => exact UInt64.le_of_lt hlt
      · exact UInt64.le_refl _
    intro r a c hc hlt ref href b hb
    rw [slot_markCommitted] at hc
    have hclose := h r a c hc (UInt64.lt_of_le_of_lt hle hlt) ref href b hb
    rw [hgc]
    exact hclose
  | _ => exact absurd hm (by simp [collecting])

omit [SliceSort] in
theorem gcTick_neededKept [LawfulBatchStore BS] {m : Looseberry BS CS TI}
    (h : m.StampsClose) (env : Env) : m.NeededKept (m.gcTick env).1 := by
  rcases m.gc.collect_dag m.gcTargets env.gc m.txRecovery with ⟨-, hgc⟩ | ⟨-, hdag, hbatches⟩
  · intro r a c _ _ ref _ b hb
    show BatchStore.getBatch
      (m.gc.collect m.gcTargets env.gc m.txRecovery).2.2.batchStore ref.digest = .ok b
    rw [hgc]
    exact hb
  · intro r a c hc hlt ref href b hb
    have hlt : m.gc.committedRound < c.round := by
      rw [← (m.gc.collect_gc m.gcTargets env.gc m.txRecovery).1]
      exact hlt
    have hslot : m.dag.slot r a = some c := by
      have hc : (m.gc.collect m.gcTargets env.gc m.txRecovery).2.2.dag.slot r a = some c := hc
      rw [hdag, Dag.slot_pruneRoundsBefore] at hc
      split at hc
      · cases hc
      · exact hc
    -- The certificate is above the committed round, so its batch is not below the
    -- round of the collection.
    have hstamp : m.gc.calculateGCRound ≤ b.round := by
      have hclose := h r a c hslot hlt ref href b hb
      rw [UInt64.lt_iff_toNat_lt] at hlt
      rw [UInt64.le_iff_toNat_le, GCManager.calculateGCRound_toNat]
      omega
    show BatchStore.getBatch
      (m.gc.collect m.gcTargets env.gc m.txRecovery).2.2.batchStore ref.digest = .ok b
    rw [hbatches]
    exact LawfulBatchStore.delete_keeps hb hstamp

/-- In a run that collects only where the stamps are close, no step loses a batch
that a certificate above the committed round refers to. -/
theorem needed_batches_kept [LawfulBatchStore BS] :
    Run.Always Started (step : Looseberry BS CS TI → _)
      (fun l _ ev => (l.collecting ev.1).isSome = true → l.StampsClose)
      (fun l _ ev => l.NeededKept (l.step ev).1) := by
  intro l log ev _ hok
  cases hm : l.collecting ev.1 with
  | none =>
    intro r a c _ _ ref _ b hb
    exact (l.step_saved ev hm).keeps hb
  | some m =>
    obtain ⟨_, _, heq⟩ := step_of_collecting hm
    have hclose := collecting_stampsClose (hok (by rw [hm]; rfl)) hm
    rw [heq]
    intro r a c hc hlt ref href b hb
    rw [← collecting_batchStore hm] at hb
    exact gcTick_neededKept hclose ev.2 r a c hc hlt ref href b hb

end

end Looseberry

/-! ## A batch that is deleted too early

With a depth of two, round `3` is committed when a certificate of round `4` has
arrived that refers to a batch of its author. Stamped `0`, as every batch is, the
batch is deleted; stamped `4`, it stays. -/

section

open IdealScheme

def stampedBatch (round : UInt64) : Batch := .new 0 1 round [[1, 2, 3]] 5

def lateCertificate (round : UInt64) : Certificate :=
  votedCertificate 1 4 [(stampedBatch round).getDigest] (votedRound 3)

/-- The batch, four rounds of certificates, and the one that refers to the batch. -/
def beforeCommit (round : UInt64) : List Event :=
  .batchMessage (stampedBatch round) 1 ::
    (((List.range 4).flatMap votedRound) ++ [lateCertificate round]).map .certificateMessage

theorem needed_batch_deleted :
    ∃ (l : IdealNode) (log : List Output) (ev : Event × Env),
      Looseberry.Reach (fun _ => True) (fun _ _ _ => True) l log ∧
      (l.step ev).1.dag.slot 4 1 = some (lateCertificate 0) ∧
      (l.step ev).1.gc.committedRound < (lateCertificate 0).round ∧
      (stampedBatch 0).getDigest ∈ (lateCertificate 0).header.batchRefs ∧
      BatchStore.getBatch l.batchStore (stampedBatch 0).digest = .ok (stampedBatch 0) ∧
      BatchStore.getBatch (l.step ev).1.batchStore (stampedBatch 0).digest =
        .error .batchNotFound := by
  refine ⟨(idealExec 0 2 (beforeCommit 0)).1, (idealExec 0 2 (beforeCommit 0)).2,
    (.notifyCommitted 3, idealEnv 100), reach_idealExec 0 2 (beforeCommit 0) trivial ?_, ?_⟩
  · exact Run.AllOk.of_forall (fun _ _ _ => trivial) _ _ _
  · decide +kernel

theorem needed_batches_kept_stamped_four :
    ∃ (l : IdealNode) (env : Env),
      (l.markCommitted 3).gc.calculateGCRound = 1 ∧
      l.NeededKept (l.step (.notifyCommitted 3, env)).1 ∧
      BatchStore.getBatch (l.step (.notifyCommitted 3, env)).1.batchStore
        (stampedBatch 4).digest = .ok (stampedBatch 4) := by
  have hrun : Run.Reach Looseberry.Started Looseberry.step
      (fun (l : IdealNode) (_ : List Output) ev =>
        (l.collecting ev.1).isSome = true → l.StampsClose)
      (idealExec 0 2 (beforeCommit 4)).1 (idealExec 0 2 (beforeCommit 4)).2 :=
    Run.Reach.of_exec (started_idealNode 0 2) (by decide +kernel)
  have hkept := Looseberry.needed_batches_kept _ _ (.notifyCommitted 3, idealEnv 100) hrun
    (fun _ => by decide +kernel)
  refine ⟨_, _, ?_, hkept, hkept 4 1 (lateCertificate 4) ?_ ?_ _ List.mem_cons_self _ ?_⟩
  · decide +kernel
  · decide +kernel
  · decide +kernel
  · decide +kernel

end

end DagMempool
