import DagMempool.Node.Ideal
import DagMempool.Proofs.NodeFrame

/-!
# What the batch store holds

Workers save batches they have made, and a batch made by `NewBatch` carries the
digest of its content. Messages save whatever batch they carry. The store is keyed
by the digest field and the first batch saved under a digest stays, so a batch
from the network whose digest is not that of its content takes the place of the
real one.

So the content of the store is what its digests say as long as every batch a peer
sends passes `Batch.Verify`, or comes too late because its digest is taken.
-/

namespace DagMempool

/-- The batches a message carries. -/
def Event.batches : Event → List Batch
  | .batchMessage batch _ => [batch]
  | .batchResponseMessage resp => resp.batch.toList
  | .syncResponse resp _ => resp.batches
  | _ => []

namespace Looseberry

variable [Crypto] [SliceSort] {BS CS TI : Type}
variable [BatchStore BS] [CertificateStore CS] [TxIndex TI]

omit [SliceSort] [TxIndex TI] in
theorem batchReceived_batchStore (l : Looseberry BS CS TI) (env : Env) (batch : Batch) :
    (l.batchReceived env batch).1.batchStore = l.batchStore := by
  obtain ⟨fetcher, h⟩ := l.batchReceived_eq env batch
  rw [h]

/-- A step that does not collect only saves: batches of its message, and batches that
verify because a worker has made them. -/
theorem step_saved (l : Looseberry BS CS TI) (ev : Event × Env)
    (h : l.collecting ev.1 = none) :
    BatchesSaved (fun b => b.verify = true ∨ b ∈ ev.1.batches) l.batchStore
      (l.step ev).1.batchStore := by
  obtain ⟨ev, env⟩ := ev
  have hverify : ∀ s : BS, BatchesSaved (fun b => b.verify = true) l.batchStore s →
      BatchesSaved (fun b => b.verify = true ∨ b ∈ ev.batches) l.batchStore s :=
    fun s hs => hs.mono fun b hb => .inl hb
  cases ev with
  | gcTick | notifyCommitted => exact absurd h (by simp [collecting])
  | flush => exact hverify _ (Pool.stop_saved _ _ _ _)
  | workerTick idx => exact hverify _ (Pool.tick_saved _ _ _ _ _)
  | scaleDown => exact hverify _ (Pool.scaleDown_saved _ _ _ _)
  | batchMessage batch sender =>
    show BatchesSaved _ _ ((l.storeBatch batch).batchReceived env batch).1.batchStore
    rw [batchReceived_batchStore]
    exact .one (.inr (List.mem_singleton.mpr rfl))
  | batchResponseMessage resp =>
    show BatchesSaved _ _ (l.handleBatchResponseMessage env resp).1.batchStore
    unfold handleBatchResponseMessage
    cases hb : resp.batch with
    | none => exact .refl _
    | some batch =>
      have hmem : batch ∈ (Event.batchResponseMessage resp).batches := by
        simp [Event.batches, hb]
      rw [batchReceived_batchStore]
      exact .save (.one (.inr hmem)) (.inr hmem)
  | syncResponse resp sender =>
    show BatchesSaved _ _ (l.handleSyncResponse env resp sender).batchStore
    obtain ⟨_, _, _, _, _, heq⟩ := foldl_handleCertificateMessage_eq env
      (l.takeSyncResponse resp sender).1 (l.takeSyncResponse resp sender).2
    rw [handleSyncResponse, heq]
    exact (SyncManager.handleSyncResponse_saved _ _ _ _).mono fun b hb => .inr hb
  | certificateMessage cert =>
    obtain ⟨dag, certStore, orphanCerts, flow, heq⟩ := l.handleCertificateMessage_eq env cert
    show BatchesSaved _ _ (l.handleCertificateMessage env cert).batchStore
    rw [heq]
    exact .refl _
  | batchAckMessage msg =>
    obtain ⟨pool, heq⟩ := l.handleBatchAckMessage_eq msg
    show BatchesSaved _ _ (l.handleBatchAckMessage msg).batchStore
    rw [heq]
    exact .refl _
  | addTx tx =>
    obtain ⟨pool, heq⟩ := l.addTx_eq tx
    show BatchesSaved _ _ (l.addTx tx).2.batchStore
    rw [heq]
    exact .refl _
  | _ => exact .refl _

/-- Every batch the store returns is the one its digest says. -/
def BatchesIntact (l : Looseberry BS CS TI) : Prop :=
  ∀ d b, BatchStore.getBatch l.batchStore d = .ok b → b.digest = d ∧ b.verify = true

/-- Every batch the event brings verifies, or its digest is taken. -/
def BatchesGenuine (l : Looseberry BS CS TI) (_ : List Output) (ev : Event × Env) : Prop :=
  ∀ b ∈ ev.1.batches, b.verify = true ∨ BatchStore.hasBatch l.batchStore b.digest = true
deriving Decidable

variable [LawfulBatchStore BS]

theorem step_batchesIntact {l : Looseberry BS CS TI} {log : List Output} {ev : Event × Env}
    (hl : l.BatchesIntact) (hok : l.BatchesGenuine log ev) : (l.step ev).1.BatchesIntact := by
  intro d b hb
  refine ⟨LawfulBatchStore.digest_eq hb, ?_⟩
  cases hc : l.collecting ev.1 with
  | none =>
    rcases (l.step_saved ev hc).getBatch hb with hold | ⟨hverify | hmem, hfree⟩
    · exact (hl d b hold).2
    · exact hverify
    · rcases hok b hmem with hverify | htaken
      · exact hverify
      · obtain ⟨b', hb'⟩ := LawfulBatchStore.hasBatch_iff.mp htaken
        rw [LawfulBatchStore.digest_eq hb] at hb'
        exact absurd hb' (hfree b')
  | some m =>
    obtain ⟨_, _, hstep⟩ := step_of_collecting hc
    rw [hstep] at hb
    have hm := collecting_batchStore hc
    rcases m.gcTick_batchStore ev.2 with h | h
    · exact (hl d b (by rw [← hm, ← h]; exact hb)).2
    · refine (hl d b ?_).2
      rw [← hm]
      exact LawfulBatchStore.getBatch_delete (by rw [← h]; exact hb)

/-- Over a store that starts out intact, and with every batch from the network
checked before it is handed over, the store stays intact. -/
theorem batches_intact_of_genuine {l : Looseberry BS CS TI} {log : List Output}
    (h : Reach BatchesIntact BatchesGenuine l log) (d : Hash) (b : Batch)
    (hb : BatchStore.getBatch l.batchStore d = .ok b) : b.digest = d ∧ b.verify = true := by
  have hl : l.BatchesIntact :=
    Run.Reach.invariant (fun _ h0 => h0.2) (fun _ _ _ => step_batchesIntact) h
  exact hl d b hb

end Looseberry

/-! ## A forged batch

A peer sends the batch of another validator with one transaction exchanged, and
the digest left as it was. When the real batch arrives it is a duplicate. -/

section

open IdealScheme

def genuineBatch : Batch := .new 0 1 0 [[1, 2, 3]] 5

def forgedBatch : Batch := { genuineBatch with transactions := [[6, 6, 6]] }

theorem batchesIntact_idealNode (me : UInt16) (gcDepth : UInt64) :
    (idealNode me gcDepth).BatchesIntact := by
  intro d b hb
  obtain ⟨-, hget⟩ := MemoryBatchStore.getBatch_eq_ok.mp hb
  cases hget

theorem forged_batch_is_stored :
    ∃ (l : IdealNode) (log : List Output),
      Looseberry.Reach Looseberry.BatchesIntact (fun _ _ _ => True) l log ∧
      BatchStore.getBatch l.batchStore genuineBatch.digest = .ok forgedBatch ∧
      forgedBatch.verify = false ∧ genuineBatch.verify = true := by
  refine ⟨_, _, reach_idealExec 0 10
    [.batchMessage forgedBatch 2, .batchMessage genuineBatch 1]
    (batchesIntact_idealNode 0 10) ?_, ?_⟩
  · exact ⟨trivial, trivial, trivial⟩
  · decide +kernel

def genuineFirst : List Event :=
  [.addTx [7], .workerTick 0, .batchMessage genuineBatch 1, .batchMessage forgedBatch 2]

theorem batches_intact_genuine_first :
    ∃ (l : IdealNode) (log : List Output),
      Looseberry.Reach Looseberry.BatchesIntact Looseberry.BatchesGenuine l log ∧
      BatchStore.getBatch l.batchStore genuineBatch.digest = .ok genuineBatch ∧
      genuineBatch.verify = true := by
  have hrun : Looseberry.Reach Looseberry.BatchesIntact Looseberry.BatchesGenuine _ _ :=
    reach_idealExec 0 10 genuineFirst (batchesIntact_idealNode 0 10) (by decide +kernel)
  have hget : BatchStore.getBatch (idealExec 0 10 genuineFirst).1.batchStore
      genuineBatch.digest = .ok genuineBatch := by decide +kernel
  exact ⟨_, _, hrun, hget, (Looseberry.batches_intact_of_genuine hrun _ _ hget).2⟩

end

end DagMempool
