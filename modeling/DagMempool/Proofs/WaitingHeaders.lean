import DagMempool.Node.Ideal
import DagMempool.Proofs.FetcherBookkeeping
import DagMempool.Proofs.NodeFrame

/-!
# Headers that wait for what is there

A header waits in the fetcher for the batches that were not stored when it came. The handlers of
batch messages and of batch responses tell the fetcher of a batch once it is stored. Two others
store batches too: a sync response brings some along, and the workers make their own. Of these
the fetcher hears nothing, and a header that waits for one of them goes on waiting, although the
batch is there. As long as nobody waits for what these two store, whatever a header waits for is
not there.
-/

namespace DagMempool

namespace BatchFetcher

variable {bf : BatchFetcher} {d : Hash}

def AwaitsBatch (bf : BatchFetcher) (d : Hash) : Prop :=
  ∃ k entry, bf.pendingHeaders.get k = some entry ∧ entry.missingBatch.has d = true

theorem not_awaitsBatch_new (cfg : BatchFetcherConfig) (d : Hash) : ¬ (new cfg).AwaitsBatch d := by
  rintro ⟨k, entry, hentry, -⟩
  exact absurd hentry (by simp [new])

theorem AwaitsBatch.of_requestBatchesForHeader {BS : Type} [BatchStore BS] {batchStore : BS}
    {header : Header} {now : Int}
    (h : (bf.requestBatchesForHeader batchStore header now).2.1.AwaitsBatch d) :
    bf.AwaitsBatch d ∨ BatchStore.hasBatch batchStore d = false := by
  cases hreg : bf.registers batchStore header with
  | false =>
    rw [requestBatchesForHeader_of_not_registers hreg] at h
    exact .inl h
  | true =>
    obtain ⟨reqs, hrequest, -⟩ := requestBatchesForHeader_of_registers hreg now
    rw [hrequest] at h
    obtain ⟨k, entry, hentry, hd⟩ := h
    rcases GoMap.get_set_eq_some hentry with ⟨rfl, rfl⟩ | ⟨-, hold⟩
    · have hmissing := (List.mem_filter.mp (has_waitingEntry.mp hd)).2
      exact .inr (by simpa using hmissing)
    · exact .inl ⟨k, entry, hold, hd⟩

theorem Bookkept.awaitsBatch_of_notify (hbf : bf.Bookkept) {batch : Batch}
    (h : (bf.notifyBatchReceived batch).2.AwaitsBatch d) : bf.AwaitsBatch d ∧ d ≠ batch.digest := by
  obtain ⟨k, entry, hentry, hd⟩ := h
  rw [hbf.get_notifyBatchReceived] at hentry
  obtain ⟨old, hold, hafter⟩ := Option.bind_eq_some_iff.mp hentry
  rw [(afterBatch_eq_some hafter).1] at hd
  obtain ⟨hne, hd⟩ := GoMap.has_del.mp hd
  exact ⟨⟨k, old, hold, hd⟩, hne⟩

theorem awaitsBatch_of_cleanup {order : IterOrder PendingBatchRequest} {now : Int}
    (h : ((bf.cleanupTimedOutRequests order now).1.cleanupTimedOutHeaders now).AwaitsBatch d) :
    bf.AwaitsBatch d := by
  obtain ⟨k, entry, hentry, hd⟩ := h
  have hentry := (GoMap.get_filter_eq_some.mp hentry).1
  obtain ⟨reqs, hcleanup⟩ := bf.cleanupTimedOutRequests_eq order now
  rw [hcleanup] at hentry
  exact ⟨k, entry, (GoMap.get_delAll_eq_some.mp hentry).2, hd⟩

end BatchFetcher

/-! ## What the workers store

A store that reports its saves has changed by the batches that were made, and no others. -/

namespace Worker

variable [Crypto] {BS TI : Type} [BatchStore BS] [TxIndex TI] [ReportsSaves BS]

theorem tryCreateBatch_made (w : Worker) (batchStore : BS) (txIndex : TI) (now : Int) :
    BatchesSaved (· ∈ (w.tryCreateBatch batchStore txIndex now).1.toList) batchStore
      (w.tryCreateBatch batchStore txIndex now).2.2.1 := by
  unfold tryCreateBatch
  split
  · exact .refl _
  · dsimp only
    split
    · next err herr =>
        rw [ReportsSaves.eq_of_error herr]
        exact .refl _
    · exact .one (by simp)

theorem stop_made (w : Worker) (batchStore : BS) (txIndex : TI) (now : Int) :
    BatchesSaved (· ∈ (w.stop batchStore txIndex now).1.toList) batchStore
      (w.stop batchStore txIndex now).2.2.1 := by
  unfold stop
  split
  · exact .refl _
  · exact tryCreateBatch_made _ _ _ _

end Worker

namespace Pool

variable [Crypto] {BS TI : Type} [BatchStore BS] [TxIndex TI] [ReportsSaves BS]
variable (p : Pool) (batchStore : BS) (txIndex : TI) (now : Int)

theorem tick_made (idx : Nat) (batchStore : BS) (txIndex : TI) (now : Int) :
    BatchesSaved (· ∈ (p.tick idx batchStore txIndex now).1) batchStore
      (p.tick idx batchStore txIndex now).2.2.1 := by
  unfold tick
  split
  · exact .refl _
  · exact Worker.tryCreateBatch_made _ _ _ _

theorem stopWorkers_made (ws : List Worker) :
    BatchesSaved (· ∈ (stopWorkers batchStore txIndex now ws).1) batchStore
      (stopWorkers batchStore txIndex now ws).2.1 := by
  induction ws generalizing batchStore txIndex with
  | nil => exact .refl _
  | cons w ws ih =>
    have hfirst := Worker.stop_made w batchStore txIndex now
    exact (hfirst.mono fun b hb => List.mem_append_left _ hb).trans
      ((ih _ _).mono fun b hb => List.mem_append_right _ hb)

theorem stop_made :
    BatchesSaved (· ∈ (p.stop batchStore txIndex now).1) batchStore
      (p.stop batchStore txIndex now).2.2.1 := by
  unfold stop
  split
  · exact .refl _
  · exact stopWorkers_made _ _ _ _

theorem scaleDown_made :
    BatchesSaved (· ∈ (p.scaleDown batchStore txIndex now).1) batchStore
      (p.scaleDown batchStore txIndex now).2.2.1 := by
  unfold scaleDown
  split
  · exact .refl _
  · split
    · exact .refl _
    · split
      · exact .refl _
      · exact Worker.stop_made _ _ _ _

end Pool

theorem Primary.handleHeader_state [Crypto] {CS φ : Type} [CertificateStore CS] (p : Primary)
    (certStore : CS) (request : φ → Header → Bool × φ) (fetcher : φ) (header : Header) :
    (p.handleHeader certStore request fetcher header).2 = fetcher ∨
      (p.handleHeader certStore request fetcher header).2 = (request fetcher header).2 := by
  unfold handleHeader
  split
  · exact .inl rfl
  · split
    · exact .inl rfl
    · dsimp only
      split
      · exact .inr rfl
      · split
        · exact .inr rfl
        · exact .inr rfl

namespace Looseberry

variable [Crypto] {BS CS TI : Type}
variable [BatchStore BS] [CertificateStore CS] [TxIndex TI] {l : Looseberry BS CS TI}

/-- The batches a step stores without telling the fetcher. -/
def unreported (l : Looseberry BS CS TI) (ev : Event × Env) : List Batch :=
  match ev.1 with
  | .syncResponse resp _ => resp.batches
  | .workerTick idx => (l.pool.tick idx l.batchStore l.txIndex ev.2.now).1
  | .flush => (l.pool.stop l.batchStore l.txIndex ev.2.now).1
  | _ => []

/-- No header waits for one of these. -/
def Unawaited (l : Looseberry BS CS TI) (_ : List Output) (ev : Event × Env) : Prop :=
  ∀ b ∈ l.unreported ev, ¬ l.fetcher.AwaitsBatch b.digest

/-- Whatever a header waits for is not there. -/
structure Informed (l : Looseberry BS CS TI) : Prop where
  bookkept : l.fetcher.Bookkept
  absent : ∀ {d}, l.fetcher.AwaitsBatch d → BatchStore.hasBatch l.batchStore d = false

/-! ## One step

A batch that a message brings is reported after it is stored, and then nobody waits for it. -/

omit [TxIndex TI] in
theorem Informed.deliverHeader (h : l.Informed) (env : Env) (header : Header) :
    (l.deliverHeader env header).1.Informed := by
  rcases l.primary.handleHeader_state l.certStore
      (fun (state : BatchFetcher × List BatchFetcher.Request) (header : Header) =>
        let requested := state.1.requestBatchesForHeader l.batchStore header env.now
        (requested.1, requested.2.1, state.2 ++ requested.2.2)) (l.fetcher, []) header
    with hstate | hstate
  · have hfetcher : (l.deliverHeader env header).1.fetcher = l.fetcher := congrArg Prod.fst hstate
    exact ⟨hfetcher ▸ h.bookkept, fun hd => h.absent (hfetcher ▸ hd)⟩
  · have hfetcher : (l.deliverHeader env header).1.fetcher =
        (l.fetcher.requestBatchesForHeader l.batchStore header env.now).2.1 :=
      congrArg Prod.fst hstate
    refine ⟨hfetcher ▸ h.bookkept.requestBatchesForHeader l.batchStore header env.now,
      fun {d} hd => ?_⟩
    rw [hfetcher] at hd
    rcases hd.of_requestBatchesForHeader with hold | hmissing
    · exact h.absent hold
    · exact hmissing

omit [TxIndex TI] in
theorem Informed.deliverHeaders (h : l.Informed) (env : Env) (headers : List Header) :
    (l.deliverHeaders env headers).1.Informed := by
  induction headers generalizing l with
  | nil => exact h
  | cons header headers ih => exact ih (h.deliverHeader env header)

omit [TxIndex TI] in
theorem informed_batchReceived (hbf : l.fetcher.Bookkept) {batch : Batch}
    (habsent : ∀ {d}, l.fetcher.AwaitsBatch d → d ≠ batch.digest →
      BatchStore.hasBatch l.batchStore d = false) (env : Env) :
    (l.batchReceived env batch).1.Informed := by
  have hnotified : Informed { l with fetcher := (l.fetcher.notifyBatchReceived batch).2 } := by
    refine ⟨hbf.notifyBatchReceived batch, fun hd => ?_⟩
    obtain ⟨hold, hne⟩ := hbf.awaitsBatch_of_notify hd
    exact habsent hold hne
  exact hnotified.deliverHeaders env _

omit [CertificateStore CS] [TxIndex TI] in
theorem Informed.saved [KnowsSavedBatches BS] (h : l.Informed) {P : Batch → Prop}
    (hP : ∀ b, P b → ¬ l.fetcher.AwaitsBatch b.digest) {l' : Looseberry BS CS TI}
    (hfetcher : l'.fetcher = l.fetcher) (hstore : BatchesSaved P l.batchStore l'.batchStore) :
    l'.Informed := by
  refine ⟨hfetcher ▸ h.bookkept, fun {d} hd => ?_⟩
  rw [hfetcher] at hd
  by_contra hhas
  rcases hstore.hasBatch (Bool.eq_true_of_not_eq_false hhas) with hold | ⟨b, hb, rfl⟩
  · rw [h.absent hd] at hold
    cases hold
  · exact hP b hb hd

theorem Informed.handleBatchMessage [KnowsSavedBatches BS] (h : l.Informed) (env : Env)
    (batch : Batch) (sender : UInt16) : (l.handleBatchMessage env batch sender).1.Informed := by
  refine informed_batchReceived (l := l.storeBatch batch) h.bookkept (fun {d} hd hne => ?_) env
  rw [← Bool.not_eq_true]
  intro hhas
  rcases KnowsSavedBatches.has_save hhas with hold | heq
  · exact absurd ((h.absent hd).symm.trans hold) (by simp)
  · exact hne heq

theorem Informed.handleBatchResponseMessage [KnowsSavedBatches BS] (h : l.Informed) (env : Env)
    (resp : BatchResponseMessage) : (l.handleBatchResponseMessage env resp).1.Informed := by
  unfold Looseberry.handleBatchResponseMessage
  split
  · exact h
  · next batch _ =>
      refine informed_batchReceived (l := { l.storeBatch batch with
        batchStore := (BatchStore.saveBatch (l.storeBatch batch).batchStore batch).2 })
        h.bookkept (fun {d} hd hne => ?_) env
      rw [← Bool.not_eq_true]
      intro hhas
      -- The batch is saved twice.
      rcases KnowsSavedBatches.has_save hhas with hhas | heq
      · rcases KnowsSavedBatches.has_save hhas with hold | heq
        · exact absurd ((h.absent hd).symm.trans hold) (by simp)
        · exact hne heq
      · exact hne heq

theorem Informed.gcTick [KnowsSavedBatches BS] (h : l.Informed) (env : Env) :
    (l.gcTick env).1.Informed := by
  refine ⟨h.bookkept, fun {d} hd => ?_⟩
  rcases l.gcTick_batchStore env with hstore | hstore
  · rw [hstore]
    exact h.absent hd
  · rw [hstore, ← Bool.not_eq_true]
    intro hhas
    exact absurd ((h.absent hd).symm.trans (KnowsSavedBatches.has_delete hhas)) (by simp)

variable [SliceSort] [ReportsSaves BS] [KnowsSavedBatches BS]

theorem Informed.step (h : l.Informed) {log : List Output} {ev : Event × Env}
    (hok : l.Unawaited log ev) : (l.step ev).1.Informed := by
  obtain ⟨ev, env⟩ := ev
  cases ev with
  | headerMessage header => exact h.deliverHeader env header
  | batchMessage batch sender => exact h.handleBatchMessage env batch sender
  | batchResponseMessage resp => exact h.handleBatchResponseMessage env resp
  | syncResponse resp sender =>
    obtain ⟨_, _, _, _, _, heq⟩ := foldl_handleCertificateMessage_eq env
      (l.takeSyncResponse resp sender).1 (l.takeSyncResponse resp sender).2
    show (l.handleSyncResponse env resp sender).Informed
    rw [handleSyncResponse, heq]
    exact h.saved hok rfl (SyncManager.handleSyncResponse_saved _ _ _ _)
  | workerTick idx => exact h.saved hok rfl (Pool.tick_made _ _ _ _ _)
  | flush => exact h.saved hok rfl (Pool.stop_made _ _ _ _)
  | scaleDown =>
    have hmade := Pool.scaleDown_made l.pool l.batchStore l.txIndex env.now
    rw [Pool.scaleDown_fst] at hmade
    exact h.saved (fun b hb => absurd hb (by simp)) rfl hmade
  | fetcherTick =>
    exact ⟨(h.bookkept.cleanupTimedOutRequests _ _).cleanupTimedOutHeaders _,
      fun hd => h.absent (BatchFetcher.awaitsBatch_of_cleanup hd)⟩
  | updateValidatorSet vs =>
    have hbf := h.bookkept
    exact ⟨⟨hbf.keyed, hbf.waits, hbf.listed, hbf.requested, hbf.own, hbf.bounded⟩, h.absent⟩
  | gcTick => exact h.gcTick env
  | notifyCommitted round =>
    have hmarked : (l.markCommitted round).Informed := ⟨h.bookkept, h.absent⟩
    obtain ⟨_, _, hstep⟩ := l.notifyCommitted_eq env round
    show (l.notifyCommitted env round).1.Informed
    rw [hstep]
    have hcollected := hmarked.gcTick env
    exact ⟨hcollected.bookkept, hcollected.absent⟩
  | certificateMessage cert =>
    obtain ⟨_, _, _, _, heq⟩ := l.handleCertificateMessage_eq env cert
    show (l.handleCertificateMessage env cert).Informed
    rw [heq]
    exact ⟨h.bookkept, h.absent⟩
  | batchAckMessage msg =>
    obtain ⟨_, heq⟩ := l.handleBatchAckMessage_eq msg
    show (l.handleBatchAckMessage msg).Informed
    rw [heq]
    exact ⟨h.bookkept, h.absent⟩
  | addTx tx =>
    obtain ⟨_, heq⟩ := l.addTx_eq tx
    show (l.addTx tx).2.Informed
    rw [heq]
    exact ⟨h.bookkept, h.absent⟩
  | _ => exact ⟨h.bookkept, h.absent⟩

/-- In every run in which no sync response brings, and no worker makes, a batch that a header
waits for, no header ever waits for a batch that is there. -/
theorem awaited_batches_absent {log : List Output}
    (h : Reach (fun _ => True) Unawaited l log) {k d : Hash} {entry : PendingHeaderEntry}
    (hentry : l.fetcher.pendingHeaders.get k = some entry)
    (hd : entry.missingBatch.has d = true) : BatchStore.hasBatch l.batchStore d = false := by
  have hinv : l.Informed := by
    refine Run.Reach.invariant (I := fun (l : Looseberry BS CS TI) _ => l.Informed) ?_
      (fun _ _ _ h hok => h.step hok) h
    rintro _ ⟨⟨cfg, vs, batchStore, certStore, txIndex, now, rfl⟩, -⟩
    have hnew := BatchFetcher.bookkept_new .default
    exact ⟨⟨hnew.keyed, hnew.waits, hnew.listed, hnew.requested, hnew.own, hnew.bounded⟩,
      fun hd => absurd hd (BatchFetcher.not_awaitsBatch_new .default _)⟩
  exact hinv.absent ⟨k, entry, hentry, hd⟩

end Looseberry

section

open IdealScheme

/-- Two batches of validator `1`, and a header that refers to both. -/
def syncedBatch : Batch := .new 0 1 0 [[1]] 5

def missedBatch : Batch := .new 0 1 0 [[2]] 6

def waitingHeader : Header :=
  idealHeader 1 0 [syncedBatch.getDigest, missedBatch.getDigest] [] 7

/-- A response to a sync request that brings a batch. -/
def broughtAlong : SyncResponse :=
  { certificates := [], batches := [syncedBatch], fromRound := 0, toRound := 0 }

/-- The header comes first, and goes on waiting for the batch that the response brings. -/
theorem header_waits_for_stored_batch :
    (let l := (idealExec 0 10 [.headerMessage waitingHeader, .syncResponse broughtAlong 1]).1
     BatchStore.hasBatch l.batchStore syncedBatch.digest = true ∧
       (l.fetcher.pendingHeaders.get waitingHeader.digest).any
         (fun entry => entry.missingBatch.has syncedBatch.digest) = true) := by
  decide +kernel

/-- Where the response comes first the header waits for the other batch only. -/
theorem awaited_batches_absent_synced :
    let l := (idealExec 0 10 [.syncResponse broughtAlong 1, .headerMessage waitingHeader]).1
    ∃ entry, l.fetcher.pendingHeaders.get waitingHeader.digest = some entry ∧
      entry.missingBatch.has missedBatch.digest = true ∧
      BatchStore.hasBatch l.batchStore missedBatch.digest = false := by
  have hwaits : ((idealExec 0 10 [.syncResponse broughtAlong 1,
      .headerMessage waitingHeader]).1.fetcher.pendingHeaders.get waitingHeader.digest).any
        (fun entry => entry.missingBatch.has missedBatch.digest) = true := by
    decide +kernel
  obtain ⟨entry, hentry, hmissing⟩ := (Option.any_eq_true _ _).mp hwaits
  have hok : Run.AllOk Looseberry.step Looseberry.Unawaited (idealNode 0 10) []
      (idealRun [.syncResponse broughtAlong 1, .headerMessage waitingHeader]) :=
    ⟨fun _ _ => BatchFetcher.not_awaitsBatch_new .default _,
      fun _ hb => by simp [Looseberry.unreported] at hb, trivial⟩
  have hreach : Looseberry.Reach (fun _ => True) Looseberry.Unawaited _ _ :=
    reach_idealExec 0 10 _ trivial hok
  exact ⟨entry, hentry, hmissing, Looseberry.awaited_batches_absent hreach hentry hmissing⟩

end

end DagMempool
