import DagMempool.Proofs.BatchIntegrity

/-!
# What a collection recovers

A collection with recovery on is to hand back the transactions of every batch it
deletes without their having been delivered, and of no batch that was committed. It
decides by the batch's own round twice: it scans the rounds since the last
collection, and in each of them takes for committed what a certificate of the same
round refers to.

Neither is what was meant. A batch stamped below the first round scanned is deleted
unseen, one that a certificate of its round names is deleted even if nobody ever
took it, and one that a certificate of a later round names is handed back although
it was committed. The theorems say for which states of the stores and the DAG
nothing of the kind happens.
-/

namespace DagMempool

def Output.reapedBatches : Output → List CertifiedBatch
  | .reaped batches => batches
  | _ => []

def Output.recoveredTxs : Output → List Transaction
  | .recovered txs => txs
  | _ => []

/-- The batch was part of some result of `ReapCertifiedBatches`. -/
def ReapedIn (log : List Output) (b : Batch) : Prop :=
  ∃ out ∈ log, ∃ cb ∈ out.reapedBatches, cb.batch = b
deriving Decidable

/-- The transaction was handed to the recovery callback. -/
def RecoveredIn (outputs : List Output) (tx : Transaction) : Prop :=
  ∃ out ∈ outputs, tx ∈ out.recoveredTxs
deriving Decidable

namespace Looseberry

section

variable [Crypto] [SliceSort] {BS CS TI : Type}
variable [BatchStore BS] [CertificateStore CS] [TxIndex TI]

/-! ## Nothing is tracked

The node never tells the collector of a batch, so that its index is empty and every collection
scans. -/

/-- The collector works by scanning, and is configured as the node is. -/
structure Untracked (l : Looseberry BS CS TI) : Prop where
  untracked : l.gc.uncommittedBatches = ∅
  recovery : l.gc.cfg.recoverUncommittedTxs = l.cfg.recoverTxs

omit [SliceSort] [BatchStore BS] [CertificateStore CS] [TxIndex TI] in
theorem collecting_untracked {l m : Looseberry BS CS TI} {ev : Event} (h : l.Untracked)
    (hm : l.collecting ev = some m) : m.Untracked ∧ m.cfg = l.cfg := by
  cases ev with
  | gcTick => cases hm; exact ⟨h, rfl⟩
  | notifyCommitted round =>
    cases hm
    refine ⟨⟨?_, ?_⟩, rfl⟩
    · rw [markCommitted_gc]
      exact h.untracked
    · rw [markCommitted_gc]
      exact h.recovery
  | _ => exact absurd hm (by simp [collecting])

variable {l : Looseberry BS CS TI}

theorem step_untracked (h : l.Untracked) (ev : Event × Env) :
    (l.step ev).1.Untracked ∧ (l.step ev).1.cfg = l.cfg := by
  cases hm : l.collecting ev.1 with
  | none =>
    obtain ⟨hgc, hcfg⟩ := l.step_gc ev hm
    exact ⟨⟨by rw [hgc]; exact h.untracked, by rw [hgc, hcfg]; exact h.recovery⟩, hcfg⟩
  | some m =>
    obtain ⟨hm', hcfg⟩ := collecting_untracked h hm
    obtain ⟨_, _, heq⟩ := step_of_collecting hm
    rw [heq]
    refine ⟨⟨?_, ?_⟩, hcfg⟩
    · exact GCManager.collect_untracked hm'.untracked m.gcTargets ev.2.gc m.txRecovery
    · show (m.gc.collect m.gcTargets ev.2.gc m.txRecovery).2.1.cfg.recoverUncommittedTxs = _
      rw [(m.gc.collect_gc m.gcTargets ev.2.gc m.txRecovery).2]
      exact hm'.recovery

omit [SliceSort] [BatchStore BS] [CertificateStore CS] [TxIndex TI] in
theorem started_untracked (h : l.Started) : l.Untracked := by
  obtain ⟨cfg, vs, batchStore, certStore, txIndex, now, rfl⟩ := h
  exact ⟨rfl, rfl⟩

omit [SliceSort] in
theorem performGC_eq_scanned (h : l.Untracked) (orders : GCOrders) (g : UInt64) :
    (l.gc.performGC l.gcTargets orders l.txRecovery g).1 =
      if l.cfg.recoverTxs then
        (l.gc.scanned l.gcTargets orders g).flatMap (·.transactions)
      else [] := by
  rw [GCManager.performGC_recovered,
    (GCManager.recoverTxs_untracked h.untracked l.gcTargets orders l.txRecovery g).2,
    h.recovery]
  unfold txRecovery
  cases l.cfg.recoverTxs with
  | false => rfl
  | true => rfl

omit [SliceSort] in
theorem recoveredIn_gcTick {m : Looseberry BS CS TI} (h : m.Untracked)
    (hon : m.cfg.recoverTxs = true) (hgc : m.gc.calculateGCRound ≠ 0) (env : Env) {b : Batch}
    (hb : b ∈ m.gc.scanned m.gcTargets env.gc m.gc.calculateGCRound) {tx : Transaction}
    (htx : tx ∈ b.transactions) : RecoveredIn (m.gcTick env).2 tx := by
  have hcollect : (m.gc.collect m.gcTargets env.gc m.txRecovery).1 =
      (m.gc.scanned m.gcTargets env.gc m.gc.calculateGCRound).flatMap (·.transactions) := by
    rw [GCManager.collect, if_neg hgc, performGC_eq_scanned h, if_pos hon]
  have hmem : tx ∈ (m.gc.collect m.gcTargets env.gc m.txRecovery).1 := by
    rw [hcollect]
    exact List.mem_flatMap.mpr ⟨b, hb, htx⟩
  refine ⟨.recovered (m.gc.collect m.gcTargets env.gc m.txRecovery).1, ?_, hmem⟩
  unfold gcTick withCollected
  rw [if_neg (by simpa using List.ne_nil_of_mem hmem)]
  exact List.mem_singleton.mpr rfl

variable [LawfulBatchStore BS]

/-- Every batch the event deletes was reaped before, or is stamped with a round the
scan looks at, and lists, and in which no certificate refers to it. -/
def Recoverable (l : Looseberry BS CS TI) (log : List Output) (ev : Event × Env) : Prop :=
  ∀ m, l.collecting ev.1 = some m → ∀ d b, BatchStore.getBatch l.batchStore d = .ok b →
    b.round < m.gc.calculateGCRound →
      ReapedIn log b ∨
        (m.gc.scanStart ≤ b.round ∧
          (∃ bs, BatchStore.getBatchesByRound l.batchStore b.round = .ok bs) ∧
          ¬ GCManager.NamedInOwnRound m.gcTargets b)

theorem step_reaped_or_recovered {log : List Output} {ev : Event × Env} (h : l.Untracked)
    (hon : l.cfg.recoverTxs = true) (hok : l.Recoverable log ev) {d : Hash} {b : Batch}
    (hb : BatchStore.getBatch l.batchStore d = .ok b)
    (hgone : BatchStore.getBatch (l.step ev).1.batchStore d ≠ .ok b) :
    ReapedIn log b ∨ ∀ tx ∈ b.transactions, RecoveredIn (l.step ev).2 tx := by
  cases hm : l.collecting ev.1 with
  | none => exact absurd ((l.step_saved ev hm).keeps hb) hgone
  | some m =>
    obtain ⟨hm', hcfg⟩ := collecting_untracked h hm
    obtain ⟨_, _, heq⟩ := step_of_collecting hm
    have hstore := collecting_batchStore hm
    have hb' : BatchStore.getBatch m.batchStore d = .ok b := by rw [hstore]; exact hb
    rw [heq] at hgone ⊢
    rcases m.gc.collect_dag m.gcTargets ev.2.gc m.txRecovery with
      ⟨-, hgc⟩ | ⟨hne, -, hdeleted⟩
    · refine absurd ?_ hgone
      show BatchStore.getBatch
        (m.gc.collect m.gcTargets ev.2.gc m.txRecovery).2.2.batchStore d = .ok b
      rw [hgc]
      exact hb'
    · have hround : b.round < m.gc.calculateGCRound := by
        by_contra hle
        refine hgone ?_
        show BatchStore.getBatch
          (m.gc.collect m.gcTargets ev.2.gc m.txRecovery).2.2.batchStore d = .ok b
        rw [hdeleted]
        exact LawfulBatchStore.delete_keeps hb' (UInt64.not_lt.mp hle)
      rcases hok m hm d b hb hround with hreaped | ⟨hstart, hlisted, hfree⟩
      · exact .inl hreaped
      · refine .inr fun tx htx => ?_
        rw [← hstore] at hlisted
        rw [← LawfulBatchStore.digest_eq hb'] at hb'
        exact recoveredIn_gcTick hm' (by rw [hcfg]; exact hon) hne ev.2
          (GCManager.mem_scanned.mpr ⟨⟨hstart, hround⟩, hlisted, hb', hfree⟩) htx

/-- In a run with recovery on whose collections delete only what is recoverable, a
batch that goes was reaped, or its transactions are recovered in the same step. -/
theorem removed_batches_reaped_or_recovered :
    Run.Always (fun l => l.Started ∧ l.cfg.recoverTxs = true)
      (step : Looseberry BS CS TI → _) Recoverable
      (fun l log ev => ∀ d b, BatchStore.getBatch l.batchStore d = .ok b →
        BatchStore.getBatch (l.step ev).1.batchStore d ≠ .ok b →
          ReapedIn log b ∨ ∀ tx ∈ b.transactions, RecoveredIn (l.step ev).2 tx) := by
  refine Run.Always.of_invariant (I := fun l _ => l.Untracked ∧ l.cfg.recoverTxs = true)
    (fun l h => ⟨started_untracked h.1, h.2⟩) (fun l log ev h _ => ?_)
    (fun l log ev h hok d b hb hgone => step_reaped_or_recovered h.1 h.2 hok hb hgone)
  obtain ⟨huntracked, hcfg⟩ := step_untracked h.1 ev
  exact ⟨huntracked, by rw [hcfg]; exact h.2⟩

/-- The transaction is in a stored batch to which a certificate of the DAG up to the
committed round refers. -/
def CommittedTx (l : Looseberry BS CS TI) (tx : Transaction) : Prop :=
  ∃ r a c, l.dag.slot r a = some c ∧ c.round ≤ l.gc.committedRound ∧
    ∃ ref ∈ c.header.batchRefs, ∃ b,
      BatchStore.getBatch l.batchStore ref.digest = .ok b ∧ tx ∈ b.transactions

/-- A collection below any round, in any state a node can reach and from which it may
collect, recovers no committed transaction exactly if every batch it scans that shares
a transaction with a committed batch is named by a certificate of its own round. -/
theorem recovered_uncommitted_iff {l m : Looseberry BS CS TI} {log : List Output}
    {ev : Event} (h : Reach (fun _ => True) (fun _ _ _ => True) l log)
    (hm : l.collecting ev = some m) (orders : GCOrders) (g : UInt64) :
    (∀ tx ∈ (m.gc.performGC m.gcTargets orders m.txRecovery g).1, ¬ m.CommittedTx tx) ↔
      (m.cfg.recoverTxs = true → ∀ b, BatchStore.getBatch m.batchStore b.digest = .ok b →
        m.gc.scanStart ≤ b.round → b.round < g →
        (∃ bs, BatchStore.getBatchesByRound m.batchStore b.round = .ok bs) →
        (∃ tx ∈ b.transactions, m.CommittedTx tx) →
          GCManager.NamedInOwnRound m.gcTargets b) := by
  have hl : l.Untracked := Run.Reach.invariant (I := fun l _ => l.Untracked)
    (fun _ h0 => started_untracked h0.1) (fun _ _ ev hl _ => (step_untracked hl ev).1) h
  rw [performGC_eq_scanned (collecting_untracked hl hm).1]
  cases hon : m.cfg.recoverTxs with
  | false => simp
  | true =>
    rw [if_pos rfl]
    constructor
    · rintro hnone - b hb hstart hlt hlisted ⟨tx, htx, hcommitted⟩
      by_contra hfree
      have hscanned : b ∈ m.gc.scanned m.gcTargets orders g :=
        GCManager.mem_scanned.mpr ⟨⟨hstart, hlt⟩, hlisted, hb, hfree⟩
      exact hnone tx (List.mem_flatMap.mpr ⟨b, hscanned, htx⟩) hcommitted
    · intro hnamed tx htx hcommitted
      obtain ⟨b, hscanned, htx⟩ := List.mem_flatMap.mp htx
      obtain ⟨⟨hstart, hlt⟩, hlisted, hb, hfree⟩ := GCManager.mem_scanned.mp hscanned
      exact hfree (hnamed rfl b hb hstart hlt hlisted ⟨tx, htx, hcommitted⟩)

end

end Looseberry

section

open IdealScheme

/-! ## A batch that is made after a collection

Rounds below `2` have been collected when the worker makes a batch. It is stamped
`0`, so the next scan starts above it and the next deletion takes it. -/

/-- The worker's batch, made in the third step. -/
def workerBatch (now : Int64) : Batch := .new 0 0 0 [[7]] now

def batchAfterCollection : List Event := [.notifyCommitted 3, .addTx [7], .workerTick 0]

theorem unscanned_batch_lost :
    ∃ (l : IdealNode) (log : List Output) (ev : Event × Env),
      Run.Reach (fun l => l.Started ∧ l.cfg.recoverTxs = true) Looseberry.step
        (fun _ _ _ => True) l log ∧
      BatchStore.getBatch l.batchStore (workerBatch 3).digest = .ok (workerBatch 3) ∧
      BatchStore.getBatch (l.step ev).1.batchStore (workerBatch 3).digest =
        .error .batchNotFound ∧
      ¬ ReapedIn log (workerBatch 3) ∧
      ∃ tx ∈ (workerBatch 3).transactions, ¬ RecoveredIn (l.step ev).2 tx := by
  refine ⟨_, _, (.notifyCommitted 4, idealEnv 4), reach_idealExec 0 1 batchAfterCollection
    (by decide +kernel) (Run.AllOk.of_forall (fun _ _ _ => trivial) _ _ _), ?_⟩
  decide +kernel

def batchBeforeCollection : List Event := [.addTx [7], .workerTick 0]

theorem removed_batches_reaped_or_recovered_first_collection :
    ∃ (l : IdealNode) (log : List Output) (ev : Event × Env),
      BatchStore.getBatch (l.step ev).1.batchStore (workerBatch 2).digest ≠
        .ok (workerBatch 2) ∧
      (ReapedIn log (workerBatch 2) ∨
        ∀ tx ∈ (workerBatch 2).transactions, RecoveredIn (l.step ev).2 tx) := by
  have hquiet : ∀ (l : IdealNode) (log : List Output) (ev : Event × Env),
      l.collecting ev.1 = none → l.Recoverable log ev :=
    fun l log ev hnone m hm => absurd (hnone.symm.trans hm) (by simp)
  have hrun : Run.Reach (fun l : IdealNode => l.Started ∧ l.cfg.recoverTxs = true)
      Looseberry.step Looseberry.Recoverable (idealExec 0 1 batchBeforeCollection).1
      (idealExec 0 1 batchBeforeCollection).2 :=
    reach_idealExec 0 1 batchBeforeCollection (by decide +kernel)
      ⟨hquiet _ _ _ rfl, hquiet _ _ _ rfl, trivial⟩
  have honly : ∀ b ∈ (idealExec 0 1 batchBeforeCollection).1.batchStore.index.items.values,
      b = workerBatch 2 := by decide +kernel
  have hok : (idealExec 0 1 batchBeforeCollection).1.Recoverable
      (idealExec 0 1 batchBeforeCollection).2 (.notifyCommitted 2, idealEnv 3) := by
    intro m hm d b hb _
    cases hm
    obtain ⟨-, hget⟩ := MemoryBatchStore.getBatch_eq_ok.mp hb
    rw [honly b (GoMap.mem_values.mpr ⟨d, hget⟩)]
    exact .inr ⟨by decide +kernel, ⟨[workerBatch 2], by decide +kernel⟩, by decide +kernel⟩
  have hgone : BatchStore.getBatch
      ((idealExec 0 1 batchBeforeCollection).1.step (.notifyCommitted 2, idealEnv 3)).1.batchStore
      (workerBatch 2).digest ≠ .ok (workerBatch 2) := by decide +kernel
  exact ⟨_, _, _, hgone, Looseberry.removed_batches_reaped_or_recovered _ _ _ hrun hok _ _
    (by decide +kernel) hgone⟩

/-! ## A batch that is certified a round later

A batch stamped `0` is named by a certificate of round `1`, which is committed. The
scan of round `0` does not find it named. -/

def laterCertificate : Certificate :=
  votedCertificate 1 1 [genuineBatch.getDigest] (votedRound 0)

def certifiedLater : List Event :=
  .batchMessage genuineBatch 1 ::
    (votedRound 0 ++ [laterCertificate]).map .certificateMessage

theorem committed_tx_recovered :
    ∃ (l m : IdealNode) (log : List Output) (orders : GCOrders),
      Looseberry.Reach (fun _ => True) (fun _ _ _ => True) l log ∧
      l.collecting (.notifyCommitted 3) = some m ∧
      ∃ tx ∈ (m.gc.performGC m.gcTargets orders m.txRecovery m.gc.calculateGCRound).1,
        m.CommittedTx tx := by
  refine ⟨_, _, _, (idealEnv 0).gc, reach_idealExec 0 1 certifiedLater trivial
    (Run.AllOk.of_forall (fun _ _ _ => trivial) _ _ _), rfl, [1, 2, 3], ?_, 1, 1,
    laterCertificate, ?_, ?_, genuineBatch.getDigest, ?_, genuineBatch, ?_, ?_⟩
  · decide +kernel
  · decide +kernel
  · decide +kernel
  · decide +kernel
  · decide +kernel
  · decide +kernel

/-- The certificate is of the batch's own round. -/
def certifiedAtOnce : List Event :=
  [.batchMessage genuineBatch 1,
    .certificateMessage (votedCertificate 1 0 [genuineBatch.getDigest] [])]

theorem recovered_uncommitted_certified_at_once :
    ∃ (l m : IdealNode) (orders : GCOrders),
      l.collecting (.notifyCommitted 3) = some m ∧ m.gc.calculateGCRound = 2 ∧
      m.CommittedTx [1, 2, 3] ∧
      ∀ tx ∈ (m.gc.performGC m.gcTargets orders m.txRecovery m.gc.calculateGCRound).1,
        ¬ m.CommittedTx tx := by
  have hrun : Looseberry.Reach (fun _ => True) (fun _ _ _ => True)
      (idealExec 0 1 certifiedAtOnce).1 (idealExec 0 1 certifiedAtOnce).2 :=
    reach_idealExec 0 1 certifiedAtOnce trivial
      (Run.AllOk.of_forall (fun _ _ _ => trivial) _ _ _)
  have honly : ∀ b ∈ (idealExec 0 1 certifiedAtOnce).1.batchStore.index.items.values,
      b = genuineBatch := by decide +kernel
  have hm : (idealExec 0 1 certifiedAtOnce).1.collecting (.notifyCommitted 3) =
      some ((idealExec 0 1 certifiedAtOnce).1.markCommitted 3) := rfl
  refine ⟨_, _, (idealEnv 0).gc, hm, by decide +kernel, ?_,
    (Looseberry.recovered_uncommitted_iff hrun hm _ _).mpr ?_⟩
  · refine ⟨0, 1, votedCertificate 1 0 [genuineBatch.getDigest] [], by decide +kernel,
      by decide +kernel, genuineBatch.getDigest, by decide +kernel, genuineBatch,
      by decide +kernel, by decide +kernel⟩
  · intro _ b hb _ _ _ _
    rw [Looseberry.collecting_batchStore hm] at hb
    obtain ⟨-, hget⟩ := MemoryBatchStore.getBatch_eq_ok.mp hb
    rw [honly b (GoMap.mem_values.mpr ⟨_, hget⟩)]
    decide +kernel

end

end DagMempool
