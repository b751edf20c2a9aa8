import DagMempool.Node.Ideal
import DagMempool.Proofs.NodeFrame
import DagMempool.Store.Ideal
import DagMempool.Store.LevelDBBatch

/-!
# What an acknowledgment says

An acknowledgment is there to say that a validator has a batch, so that a quorum of them
says that enough honest validators have it for the batch to be found. The handler stores
the batch, indexes it, and acknowledges it, and does not look at what the store answered.
An acknowledgment is true exactly if the batch was saved, or was there before; a
validator whose disk is full acknowledges batches that it does not have.
-/

namespace DagMempool

namespace Looseberry

variable [Crypto] [SliceSort] {BS CS TI : Type}
variable [BatchStore BS] [CertificateStore CS] [TxIndex TI]

omit [SliceSort] [TxIndex TI] in
theorem not_mem_deliverHeaders (l : Looseberry BS CS TI) (env : Env) (headers : List Header)
    (target : UInt16) (ack : BatchAckMessage) :
    .sendBatchAck target ack ∉ (l.deliverHeaders env headers).2 := by
  induction headers generalizing l with
  | nil => exact List.not_mem_nil
  | cons header headers ih =>
    intro h
    rcases List.mem_append.mp h with hfirst | hrest
    · unfold deliverHeader at hfirst
      dsimp only at hfirst
      split at hfirst
      · simp [batchRequests] at hfirst
      · simp [batchRequests] at hfirst
    · exact ih _ hrest

omit [SliceSort] in
theorem not_mem_gcTick (l : Looseberry BS CS TI) (env : Env) (target : UInt16)
    (ack : BatchAckMessage) : .sendBatchAck target ack ∉ (l.gcTick env).2 := by
  unfold gcTick withCollected
  split <;> simp

theorem mem_step_sendBatchAck {l : Looseberry BS CS TI} {ev : Event × Env} {target : UInt16}
    {ack : BatchAckMessage} (h : .sendBatchAck target ack ∈ (l.step ev).2) :
    ∃ batch sender, ev.1 = .batchMessage batch sender ∧ ack.batchDigest = batch.digest ∧
      ack.validator = l.cfg.validatorIndex := by
  obtain ⟨ev, env⟩ := ev
  cases ev with
  | batchMessage batch sender =>
    refine ⟨batch, sender, rfl, ?_⟩
    rcases List.mem_append.mp h with hreceived | hack
    · exact absurd hreceived (not_mem_deliverHeaders _ _ _ _ _)
    · unfold ackBatch at hack
      dsimp only at hack
      split at hack
      · cases hack
      · cases List.mem_singleton.mp hack
        exact ⟨rfl, rfl⟩
  | headerMessage header =>
    exact absurd (List.mem_append_left _ h) (not_mem_deliverHeaders l env [header] target ack)
  | batchResponseMessage resp =>
    have h : .sendBatchAck target ack ∈ (l.handleBatchResponseMessage env resp).2 := h
    unfold handleBatchResponseMessage at h
    split at h
    · cases h
    · exact absurd h (not_mem_deliverHeaders _ _ _ _ _)
  | notifyCommitted round =>
    obtain ⟨_, _, heq⟩ := l.notifyCommitted_eq env round
    have h : .sendBatchAck target ack ∈ (l.notifyCommitted env round).2 := h
    rw [heq] at h
    exact absurd h (not_mem_gcTick (l.markCommitted round) env target ack)
  | gcTick => exact absurd h (not_mem_gcTick l env target ack)
  | catchUpPeerCerts =>
    have h : .sendBatchAck target ack ∈ l.catchUpPeerCerts env := h
    unfold catchUpPeerCerts at h
    split at h <;> simp at h
  | syncRequest req =>
    have h : .sendBatchAck target ack ∈ l.handleSyncRequest env req := h
    unfold handleSyncRequest at h
    split at h <;> simp at h
  | rebroadcastTick =>
    have h : .sendBatchAck target ack ∈ l.rebroadcastIfStuck env := h
    unfold rebroadcastIfStuck at h
    split at h <;> simp at h
  | _ => simp [step, flush, withPool, workerTick, scaleDown, requestPeerCatchUp, handleVoteMessage,
      withFormed, headerTick, handleBatchRequestMessage, fetcherTick, batchRequests] at h

/-! ## What they say

The handler acknowledges a batch whatever the store answered. So what it says is true if the batch
could be saved, and also if it could not but was there. -/

/-- The batch that arrives is saved, or is there. -/
def SavesReceived (l : Looseberry BS CS TI) (ev : Event × Env) : Prop :=
  match ev.1 with
  | .batchMessage batch _ => (BatchStore.saveBatch l.batchStore batch).1 = .ok () ∨
      BatchStore.hasBatch l.batchStore batch.digest = true
  | _ => True

/-- The step sends an acknowledgment of the batch, for this validator. -/
def Acknowledges (l : Looseberry BS CS TI) (ev : Event × Env) (d : Hash) (v : UInt16) : Prop :=
  ∃ target ack, .sendBatchAck target ack ∈ (l.step ev).2 ∧ ack.batchDigest = d ∧
    ack.validator = v

/-- The node has a batch under the digest after the step. -/
def HoldsAfter (l : Looseberry BS CS TI) (ev : Event × Env) (d : Hash) : Prop :=
  BatchStore.hasBatch (l.step ev).1.batchStore d = true

theorem Acknowledges.holdsAfter_iff [ReportsSaves BS] {l : Looseberry BS CS TI}
    {ev : Event × Env} {d : Hash} {v : UInt16} (h : l.Acknowledges ev d v) :
    l.HoldsAfter ev d ↔ l.SavesReceived ev := by
  obtain ⟨target, ack, hack, rfl, -⟩ := h
  obtain ⟨batch, sender, hev, hdigest, -⟩ := mem_step_sendBatchAck hack
  obtain ⟨ev, env⟩ := ev
  obtain rfl : ev = .batchMessage batch sender := hev
  have hstore : (l.step (.batchMessage batch sender, env)).1.batchStore =
      (BatchStore.saveBatch l.batchStore batch).2 := by
    obtain ⟨fetcher, heq⟩ := (l.storeBatch batch).batchReceived_eq env batch
    show ((l.storeBatch batch).batchReceived env batch).1.batchStore = _
    rw [heq]
    rfl
  unfold HoldsAfter
  rw [hstore, hdigest]
  show _ ↔ (BatchStore.saveBatch l.batchStore batch).1 = .ok () ∨ _
  cases hsaved : (BatchStore.saveBatch l.batchStore batch).1 with
  | ok _ => simp [ReportsSaves.has_of_ok hsaved]
  | error err => simp [ReportsSaves.eq_of_error hsaved]

/-- In runs in which the batches that arrive are saved or are there, every acknowledgment
is true when it is sent. A quorum of them then has more honest validators in it than may
be faulty, each of which has a batch under the digest when it acknowledges it. -/
theorem batch_acks_sound [ReportsSaves BS] {faulty : Finset UInt16}
    {nodes : UInt16 → Looseberry BS CS TI} {pasts : UInt16 → Past BS CS TI}
    (hruns : ∀ v ∉ faulty,
      PastReach (fun _ => True) (fun l _ ev => l.SavesReceived ev) (nodes v) (pasts v)) :
    (∀ v ∉ faulty, ∀ e ∈ pasts v, ∀ d i, e.1.Acknowledges e.2 d i → e.1.HoldsAfter e.2 d) ∧
    ∀ (vs : SimpleValidatorSet) (d : Hash) (acks : Finset UInt16), faulty.card ≤ vs.f →
      vs.quorum ≤ acks.card →
      (∀ v ∈ acks, v ∉ faulty → ∃ e ∈ pasts v, e.1.Acknowledges e.2 d v) →
      ∃ holders ⊆ acks, vs.f + 1 ≤ holders.card ∧ ∀ v ∈ holders, v ∉ faulty ∧
        ∃ e ∈ pasts v, e.1.Acknowledges e.2 d v ∧ e.1.HoldsAfter e.2 d := by
  have hsaves : ∀ v ∉ faulty, ∀ e ∈ pasts v, e.1.SavesReceived e.2 := by
    intro v hv
    refine (hruns v hv).invariant (I := fun _ past => ∀ e ∈ past, e.1.SavesReceived e.2)
      (fun _ _ e he => absurd he (by simp)) fun l past ev hpast hok e he => ?_
    rcases List.mem_append.mp he with hold | hnew
    · exact hpast e hold
    · cases List.mem_singleton.mp hnew
      exact hok
  have htrue : ∀ v ∉ faulty, ∀ e ∈ pasts v, ∀ d i, e.1.Acknowledges e.2 d i →
      e.1.HoldsAfter e.2 d :=
    fun v hv e he d i hack => hack.holdsAfter_iff.mpr (hsaves v hv e he)
  refine ⟨htrue, fun vs d acks hf hquorum hacks => ⟨acks \ faulty, Finset.sdiff_subset, ?_, ?_⟩⟩
  · have hcard := Finset.le_card_sdiff faulty acks
    rw [SimpleValidatorSet.quorum] at hquorum
    omega
  · intro v hv
    obtain ⟨hmem, hhonest⟩ := Finset.mem_sdiff.mp hv
    obtain ⟨e, he, hack⟩ := hacks v hmem hhonest
    exact ⟨hhonest, e, he, hack, htrue v hhonest e he d v hack⟩

end Looseberry

section

open IdealScheme

attribute [local instance] idealBatchCramberry

def peerBatch : Batch := .new 0 3 0 [[7]] 2

def peerBatchArrives (me : UInt16) : IdealNode × List (IdealNode × (Event × Env)) :=
  idealPast me 10 [.batchMessage peerBatch 3]

theorem acknowledges_start {BS : Type} [BatchStore BS] (me : UInt16) (batchStore : BS) :
    (Looseberry.start (idealConfig me 10) (idealValidators 4 0) batchStore
        MemoryCertificateStore.new MemoryTxIndex.new 0).Acknowledges
      (.batchMessage peerBatch 3, idealEnv 1) peerBatch.digest me :=
  ⟨3, _, List.mem_append_right _ (List.mem_singleton.mpr rfl), rfl, rfl⟩

theorem batch_acks_sound_ideal :
    ∃ holders ⊆ ({0, 1, 2} : Finset UInt16), 2 ≤ holders.card ∧
      ∀ v ∈ holders, v ∉ ({3} : Finset UInt16) ∧ ∃ e ∈ (peerBatchArrives v).2,
        e.1.Acknowledges e.2 peerBatch.digest v ∧ e.1.HoldsAfter e.2 peerBatch.digest := by
  have hruns : ∀ v ∉ ({3} : Finset UInt16), Looseberry.PastReach (fun _ => True)
      (fun l _ ev => l.SavesReceived ev) (peerBatchArrives v).1 (peerBatchArrives v).2 :=
    fun v _ => reach_idealPast trivial ⟨.inl rfl, trivial⟩
  obtain ⟨-, hquorum⟩ := Looseberry.batch_acks_sound hruns
  exact hquorum (idealValidators 4 0) peerBatch.digest {0, 1, 2} (by decide) (by decide)
    fun v _ _ => ⟨_, List.mem_singleton.mpr rfl, acknowledges_start v MemoryBatchStore.new⟩

/-- A store on a disk that is full. -/
def fullDisk : LevelDBBatchStore :=
  { db := { LevelDB.DB.openFile with full := true }, closed := false }

/-- Validator `v`, just started, with a full disk. -/
def fullDiskNode (v : UInt16) :
    Looseberry LevelDBBatchStore MemoryCertificateStore MemoryTxIndex :=
  .start (idealConfig v 10) (idealValidators 4 0) fullDisk .new .new 0

/-- A quorum of validators acknowledge a batch, and none of them has it. -/
theorem batch_acked_not_held :
    (idealValidators 4 0).quorum = 3 ∧ ∀ v ∈ ({0, 1, 2} : Finset UInt16),
      (fullDiskNode v).Started ∧
      (fullDiskNode v).Acknowledges (.batchMessage peerBatch 3, idealEnv 1) peerBatch.digest v ∧
      ¬ (fullDiskNode v).HoldsAfter (.batchMessage peerBatch 3, idealEnv 1) peerBatch.digest := by
  refine ⟨by decide +kernel, fun v _ => ?_⟩
  have hacks := acknowledges_start v fullDisk
  refine ⟨⟨_, _, _, _, _, _, rfl⟩, hacks, fun hholds => ?_⟩
  have hrefused : (fullDisk.saveBatch peerBatch).1 ≠ .ok () ∧
      fullDisk.hasBatch peerBatch.digest = false := by decide +kernel
  rcases hacks.holdsAfter_iff.mp hholds with hsaved | hthere
  · exact hrefused.1 hsaved
  · exact absurd (hthere.symm.trans hrefused.2) (by simp)

end

end DagMempool
