import DagMempool.Node.Step
import DagMempool.Proofs.PrimaryRule

/-!
# What each handler leaves alone

A handler is a sequence of updates to a few components. These lemmas say which,
as an equation: the node afterwards is the node before with those components
replaced. Everything else about a handler that a later proof needs follows by
rewriting with one of them.
-/

namespace DagMempool.Looseberry

variable [Crypto] {BS CS TI : Type}

/-! ## Headers and batches

What waits for a batch is with the fetcher, and a batch that arrives goes to the store. -/

variable (l : Looseberry BS CS TI) (ev : Event × Env) (env : Env) (certs : List Certificate)
  (round : UInt64) (cert : Certificate)

section

variable [BatchStore BS] [CertificateStore CS]

theorem deliverHeader_eq (header : Header) :
    ∃ fetcher, (l.deliverHeader env header).1 = { l with fetcher } :=
  ⟨_, rfl⟩

theorem deliverHeaders_eq (headers : List Header) :
    ∃ fetcher, (l.deliverHeaders env headers).1 = { l with fetcher } := by
  induction headers generalizing l with
  | nil => exact ⟨l.fetcher, rfl⟩
  | cons header headers ih =>
    obtain ⟨fetcher, hfirst⟩ := l.deliverHeader_eq env header
    obtain ⟨fetcher', hrest⟩ := ih (l.deliverHeader env header).1
    refine ⟨fetcher', ?_⟩
    show ((l.deliverHeader env header).1.deliverHeaders env headers).1 = _
    rw [hrest, hfirst]

theorem batchReceived_eq (batch : Batch) :
    ∃ fetcher, (l.batchReceived env batch).1 = { l with fetcher } := by
  obtain ⟨fetcher, h⟩ := { l with fetcher := (l.fetcher.notifyBatchReceived batch).2
    }.deliverHeaders_eq env (l.fetcher.notifyBatchReceived batch).1
  exact ⟨fetcher, h⟩

theorem handleBatchResponseMessage_eq [TxIndex TI] (resp : BatchResponseMessage) :
    ∃ batchStore txIndex fetcher,
      (l.handleBatchResponseMessage env resp).1 = { l with batchStore, txIndex, fetcher } := by
  unfold handleBatchResponseMessage
  split
  · exact ⟨_, _, _, rfl⟩
  · next batch _ =>
      obtain ⟨fetcher, heq⟩ := batchReceived_eq
        { l.storeBatch batch with
          batchStore := (BatchStore.saveBatch (l.storeBatch batch).batchStore batch).2 }
        env batch
      exact ⟨_, _, fetcher, heq⟩

end

/-! ## The pool

A pool that has made batches gives their digests to the queue of the primary. -/

theorem queueBatches_eq (p : Primary) (batches : List Batch) :
    queueBatches p batches =
      { p with batchDigests := p.batchDigests ++ batches.map (·.getDigest) } := by
  induction batches generalizing p with
  | nil => rw [List.map_nil, List.append_nil]; rfl
  | cons b batches ih =>
    have hrest := ih (p.addBatchDigest b.getDigest)
    rw [Primary.addBatchDigest, List.append_assoc, List.singleton_append,
      ← List.map_cons] at hrest
    exact hrest

theorem withPool_eq (made : List Batch × Pool × BS × TI) :
    (l.withPool made).1 =
      { l with
        primary := { l.primary with
          batchDigests := l.primary.batchDigests ++ made.1.map (·.getDigest) }
        pool := made.2.1, batchStore := made.2.2.1, txIndex := made.2.2.2 } := by
  rw [withPool, queueBatches_eq]

theorem handleBatchAckMessage_eq (msg : BatchAckMessage) :
    ∃ pool, l.handleBatchAckMessage msg = { l with pool } := by
  unfold handleBatchAckMessage
  dsimp only
  split
  · exact ⟨_, rfl⟩
  · exact ⟨_, rfl⟩

theorem addTx_eq [TxIndex TI] (tx : Transaction) : ∃ pool, (l.addTx tx).2 = { l with pool } := by
  unfold addTx
  split
  · exact ⟨_, rfl⟩
  · exact ⟨_, rfl⟩

/-! ## Certificates

A certificate reaches the primary, the DAG, its store and the orphans. What a replay keeps is
shown by a rule, one turn at a time. -/

section

/-- The buffer is full or has the certificate, or gets it. -/
theorem bufferOrphanCert_cases :
    l.bufferOrphanCert cert = l ∨
      l.orphanCerts.has cert.digest = false ∧
        l.bufferOrphanCert cert =
          { l with orphanCerts := l.orphanCerts.set cert.digest cert } := by
  unfold bufferOrphanCert
  split
  · exact .inl rfl
  · split
    · exact .inl rfl
    · next hnew => exact .inr ⟨Bool.eq_false_iff.mpr hnew, rfl⟩

theorem bufferOrphanCert_eq : ∃ orphanCerts, l.bufferOrphanCert cert = { l with orphanCerts } := by
  rcases l.bufferOrphanCert_cases cert with heq | ⟨-, heq⟩
  · exact ⟨l.orphanCerts, heq⟩
  · exact ⟨_, heq⟩

variable [CertificateStore CS]

theorem replayOne_eq (acc : Looseberry BS CS TI × Nat) (cert : Certificate) :
    ∃ dag certStore orphanCerts,
      (replayOne acc cert).1 = { acc.1 with dag, certStore, orphanCerts } := by
  unfold replayOne
  dsimp only
  split
  · exact ⟨_, _, acc.1.orphanCerts, rfl⟩
  · exact ⟨_, _, _, rfl⟩

theorem foldl_replayOne_eq (acc : Looseberry BS CS TI × Nat) (certs : List Certificate) :
    ∃ dag certStore orphanCerts,
      (certs.foldl replayOne acc).1 = { acc.1 with dag, certStore, orphanCerts } := by
  induction certs generalizing acc with
  | nil => exact ⟨acc.1.dag, acc.1.certStore, acc.1.orphanCerts, rfl⟩
  | cons cert certs ih =>
    obtain ⟨dag, certStore, orphanCerts, hone⟩ := replayOne_eq acc cert
    obtain ⟨dag', certStore', orphanCerts', hrest⟩ := ih (replayOne acc cert)
    refine ⟨dag', certStore', orphanCerts', ?_⟩
    rw [List.foldl_cons, hrest, hone]

theorem replayOrphanCerts_eq (order : Nat → IterOrder Certificate) (fuel : Nat)
    (l : Looseberry BS CS TI) :
    ∃ dag certStore orphanCerts,
      replayOrphanCerts order fuel l = { l with dag, certStore, orphanCerts } := by
  induction fuel generalizing l with
  | zero => exact ⟨l.dag, l.certStore, l.orphanCerts, rfl⟩
  | succ fuel ih =>
    obtain ⟨dag, certStore, orphanCerts, hpass⟩ :=
      foldl_replayOne_eq (l, 0) ((order fuel).arrange l.orphanCerts.values)
    rw [replayOrphanCerts]
    split
    · exact ⟨dag, certStore, orphanCerts, hpass⟩
    · obtain ⟨dag', certStore', orphanCerts', hrest⟩ := ih
        (((order fuel).arrange l.orphanCerts.values).foldl replayOne (l, 0)).1
      refine ⟨dag', certStore', orphanCerts', ?_⟩
      rw [hrest, hpass]

section

variable {I : Looseberry BS CS TI → Prop} {Q : Looseberry BS CS TI → Certificate → Prop}

/-- A property that every turn of a replay keeps, for certificates of which `Q` is known, as it
is of those in the buffer. -/
structure ReplayRule (I : Looseberry BS CS TI → Prop)
    (Q : Looseberry BS CS TI → Certificate → Prop) : Prop where
  one : ∀ acc cert, I acc.1 → Q acc.1 cert → I (replayOne acc cert).1
  rest : ∀ acc cert cert', I acc.1 → Q acc.1 cert → Q acc.1 cert' → Q (replayOne acc cert).1 cert'
  buffered : ∀ l cert, I l → cert ∈ l.orphanCerts.values → Q l cert

theorem ReplayRule.foldl_replayOne (h : ReplayRule I Q) {certs : List Certificate}
    {acc : Looseberry BS CS TI × Nat} (hacc : I acc.1)
    (hcerts : ∀ cert ∈ certs, Q acc.1 cert) : I (certs.foldl replayOne acc).1 := by
  induction certs generalizing acc with
  | nil => exact hacc
  | cons cert certs ih =>
    have hcert := hcerts cert List.mem_cons_self
    refine ih (h.one acc cert hacc hcert) fun cert' hmem => ?_
    exact h.rest acc cert cert' hacc hcert (hcerts cert' (List.mem_cons_of_mem _ hmem))

theorem ReplayRule.keeps (h : ReplayRule I Q)
    (order : Nat → IterOrder Certificate) (fuel : Nat) {l : Looseberry BS CS TI} (hl : I l) :
    I (replayOrphanCerts order fuel l) := by
  induction fuel generalizing l with
  | zero => exact hl
  | succ fuel ih =>
    have hpass : I (((order fuel).arrange l.orphanCerts.values).foldl replayOne (l, 0)).1 :=
      h.foldl_replayOne hl fun cert hmem =>
        h.buffered l cert hl ((order fuel).mem_arrange.mp hmem)
    rw [replayOrphanCerts]
    split
    · exact hpass
    · exact ih hpass

end

theorem settleOrphans_eq (answer : Except GoError Unit) :
    ∃ dag certStore orphanCerts,
      l.settleOrphans env cert answer = { l with dag, certStore, orphanCerts } := by
  unfold settleOrphans
  split
  · obtain ⟨orphanCerts, h⟩ := l.bufferOrphanCert_eq cert
    exact ⟨l.dag, l.certStore, orphanCerts, h⟩
  · exact ⟨l.dag, l.certStore, l.orphanCerts, rfl⟩
  · exact replayOrphanCerts_eq env.orphans _ l

theorem handleCertificateMessage_eq :
    ∃ dag certStore orphanCerts flow, l.handleCertificateMessage env cert =
      { l with
        primary := (l.primary.handleCertificate l.certStore cert).2.1
        dag, certStore, orphanCerts, flow } := by
  obtain ⟨dag, certStore, orphanCerts, h⟩ := (l.admitCertificate cert).2.settleOrphans_eq
    env cert (l.admitCertificate cert).1
  refine ⟨dag, certStore, orphanCerts, l.flow.updateCurrentRound cert.round, ?_⟩
  rw [handleCertificateMessage, h]
  rfl

end

/-! ## Collections

`NotifyCommitted` marks the round as committed and then collects exactly as a tick
of the background loop would, so what a collection does is said about the tick
alone. -/

section

variable [BatchStore BS] [CertificateStore CS] [TxIndex TI]

def markCommitted (l : Looseberry BS CS TI) (round : UInt64) : Looseberry BS CS TI :=
  let targets := { l.gcTargets with dag := l.dag.setCommittedRound round }
  let raised := l.gc.raiseCommitted targets round
  { l with
    dag := raised.2.dag, gc := raised.1, flow := l.flow.updateCommittedRound round }

omit [BatchStore BS] [CertificateStore CS] [TxIndex TI] in
theorem markCommitted_dag :
    (l.markCommitted round).dag = l.dag.setCommittedRound round ∨
      (l.markCommitted round).dag =
        (l.dag.setCommittedRound round).setCommittedRound round := by
  unfold markCommitted GCManager.raiseCommitted
  split
  · exact .inr rfl
  · exact .inl rfl

omit [BatchStore BS] [CertificateStore CS] [TxIndex TI] in
theorem slot_markCommitted (round r : UInt64) (a : UInt16) :
    (l.markCommitted round).dag.slot r a = l.dag.slot r a := by
  rcases l.markCommitted_dag round with heq | heq
  · rw [heq, Dag.slot_setCommittedRound]
  · rw [heq, Dag.slot_setCommittedRound, Dag.slot_setCommittedRound]

omit [BatchStore BS] [CertificateStore CS] [TxIndex TI] in
theorem markCommitted_gc :
    (l.markCommitted round).gc =
      { l.gc with
        committedRound :=
          if l.gc.committedRound < round then round else l.gc.committedRound } := by
  unfold markCommitted GCManager.raiseCommitted
  split
  · rfl
  · rfl

theorem notifyCommitted_eq :
    ∃ lastCommittedRound lastCommitNanos, l.notifyCommitted env round =
      ({ ((l.markCommitted round).gcTick env).1 with lastCommittedRound, lastCommitNanos },
        ((l.markCommitted round).gcTick env).2) := by
  have hgc : ∀ m : Looseberry BS CS TI, m =
      { l with
        dag := l.dag.setCommittedRound round
        flow := l.flow.updateCommittedRound round } →
      m.withCollected (m.gc.notifyCommitted m.gcTargets env.gc m.txRecovery round) =
        (l.markCommitted round).gcTick env := by
    intro m hm
    subst hm
    unfold markCommitted GCManager.notifyCommitted GCManager.raiseCommitted
    by_cases hlt : l.gc.committedRound < round
    · simp only [gcTargets, if_pos hlt]
      rfl
    · simp only [gcTargets, if_neg hlt]
      rfl
  unfold notifyCommitted
  dsimp only
  rw [hgc _ rfl]
  split
  · exact ⟨_, _, rfl⟩
  · exact ⟨_, _, rfl⟩

theorem gcTick_batchStore :
    (l.gcTick env).1.batchStore = l.batchStore ∨
      (l.gcTick env).1.batchStore =
        (BatchStore.deleteBatchesBefore l.batchStore l.gc.calculateGCRound).2 := by
  rcases l.gc.collect_dag l.gcTargets env.gc l.txRecovery with ⟨-, h⟩ | ⟨-, -, h⟩
  · refine .inl ?_
    show (l.gc.collect l.gcTargets env.gc l.txRecovery).2.2.batchStore = _
    rw [h]
    rfl
  · exact .inr h

/-- The node as the collection that an event runs finds it. -/
def collecting (l : Looseberry BS CS TI) : Event → Option (Looseberry BS CS TI)
  | .gcTick => some l
  | .notifyCommitted round => some (l.markCommitted round)
  | _ => none

omit [BatchStore BS] [CertificateStore CS] [TxIndex TI] in
theorem collecting_eq {l m : Looseberry BS CS TI} {ev : Event}
    (h : l.collecting ev = some m) : ∃ dag gc flow, m = { l with dag, gc, flow } := by
  cases ev with
  | gcTick | notifyCommitted => cases h; exact ⟨_, _, _, rfl⟩
  | _ => exact absurd h (by simp [collecting])

omit [BatchStore BS] [CertificateStore CS] [TxIndex TI] in
theorem collecting_batchStore {l m : Looseberry BS CS TI} {ev : Event}
    (h : l.collecting ev = some m) : m.batchStore = l.batchStore := by
  obtain ⟨_, _, _, rfl⟩ := collecting_eq h
  rfl

/-- An event that collects is a tick of the collection, up to the two fields that
remember when something was last committed. -/
theorem step_of_collecting [SliceSort] {l m : Looseberry BS CS TI} {ev : Event × Env}
    (h : l.collecting ev.1 = some m) :
    ∃ lastCommittedRound lastCommitNanos, l.step ev =
      ({ (m.gcTick ev.2).1 with lastCommittedRound, lastCommitNanos }, (m.gcTick ev.2).2) := by
  obtain ⟨ev, env⟩ := ev
  cases ev with
  | gcTick => cases h; exact ⟨_, _, rfl⟩
  | notifyCommitted round => cases h; exact l.notifyCommitted_eq env round
  | _ => exact absurd h (by simp [collecting])

/-! ## Quiet events

Most events have nothing to do with certificates. What they leave alone is the same
for all of them. -/

/-- Not an event that reaches the DAG, its store, or what certificates are formed from. -/
def quiet : Event → Bool
  | .updateValidatorSet _ | .notifyCommitted _ | .gcTick => false
  | .certificateMessage _ | .syncResponse _ _ => false
  | .voteMessage _ | .headerTick | .voteCleanupTick => false
  | _ => true

def poolEvent : Event → Bool
  | .addTx _ | .flush | .batchAckMessage _ | .workerTick _ | .scaleUp | .scaleDown => true
  | .ackCleanupTick | .notifyCommitted _ | .gcTick | .updateValidatorSet _ => true
  | _ => false

def queues : Event → Bool
  | .workerTick _ | .scaleDown | .flush | .headerTick => true
  | _ => false

/-- What a quiet event can change: the queue of batches and the pool if it is one of
those for it, the stores and the index of batches, the fetcher, and what was asked for. -/
theorem step_eq_of_quiet [SliceSort] (h : quiet ev.1 = true) :
    ∃ batchDigests pool batchStore txIndex fetcher sync,
      (l.step ev).1 =
        { l with
          primary := { l.primary with batchDigests }
          pool, batchStore, txIndex, fetcher, sync } ∧
      sync.validatorSet = l.sync.validatorSet ∧
      (queues ev.1 = false → batchDigests = l.primary.batchDigests) ∧
      (poolEvent ev.1 = false → pool = l.pool) := by
  obtain ⟨ev, env⟩ := ev
  cases ev with
  | updateValidatorSet | notifyCommitted | gcTick | certificateMessage | syncResponse
  | voteMessage | headerTick | voteCleanupTick => exact absurd h (by simp [quiet])
  | flush =>
    have heq := l.withPool_eq (l.pool.stop l.batchStore l.txIndex env.now)
    have hflush := congrArg (fun m : Looseberry BS CS TI => { m with pool := m.pool.start }) heq
    exact ⟨_, _, _, _, _, _, hflush, rfl, fun h => absurd h (by simp [queues]),
      fun h => absurd h (by simp [poolEvent])⟩
  | workerTick idx =>
    have heq := l.withPool_eq (l.pool.tick idx l.batchStore l.txIndex env.now)
    exact ⟨_, _, _, _, _, _, heq, rfl, fun h => absurd h (by simp [queues]),
      fun h => absurd h (by simp [poolEvent])⟩
  | scaleDown =>
    have heq := l.withPool_eq (l.pool.scaleDown l.batchStore l.txIndex env.now)
    exact ⟨_, _, _, _, _, _, heq, rfl, fun h => absurd h (by simp [queues]),
      fun h => absurd h (by simp [poolEvent])⟩
  | batchMessage batch sender =>
    obtain ⟨fetcher, heq⟩ := (l.storeBatch batch).batchReceived_eq env batch
    exact ⟨_, _, _, _, _, _, heq, rfl, fun _ => rfl, fun _ => rfl⟩
  | batchResponseMessage resp =>
    obtain ⟨_, _, _, heq⟩ := l.handleBatchResponseMessage_eq env resp
    exact ⟨_, _, _, _, _, _, heq, rfl, fun _ => rfl, fun _ => rfl⟩
  | requestPeerCatchUp peer =>
    exact ⟨_, _, _, _, _, _, rfl, SyncManager.requestPeerCatchUp_validatorSet _ _ _ _,
      fun _ => rfl, fun _ => rfl⟩
  | batchAckMessage msg =>
    obtain ⟨_, heq⟩ := l.handleBatchAckMessage_eq msg
    exact ⟨_, _, _, _, _, _, heq, rfl, fun _ => rfl, fun h => absurd h (by simp [poolEvent])⟩
  | addTx tx =>
    obtain ⟨_, heq⟩ := l.addTx_eq tx
    exact ⟨_, _, _, _, _, _, heq, rfl, fun _ => rfl, fun h => absurd h (by simp [poolEvent])⟩
  | scaleUp =>
    exact ⟨_, _, _, _, _, _, rfl, rfl, fun _ => rfl, fun h => absurd h (by simp [poolEvent])⟩
  | ackCleanupTick =>
    exact ⟨_, _, _, _, _, _, rfl, rfl, fun _ => rfl, fun h => absurd h (by simp [poolEvent])⟩
  | _ => exact ⟨_, _, _, _, _, _, rfl, rfl, fun _ => rfl, fun _ => rfl⟩

/-- A node that differs from another in no more than batches, transactions, the
fetcher and what it asked for. -/
structure Alike (l l' : Looseberry BS CS TI) : Prop where
  cfg : l'.cfg = l.cfg
  gc : l'.gc = l.gc
  primary : ∃ batchDigests, l'.primary = { l.primary with batchDigests }
  validatorSet : l'.sync.validatorSet = l.sync.validatorSet
  dag : l'.dag = l.dag
  certStore : l'.certStore = l.certStore
  orphanCerts : l'.orphanCerts = l.orphanCerts

theorem step_alike [SliceSort] (h : quiet ev.1 = true) : l.Alike (l.step ev).1 := by
  obtain ⟨batchDigests, _, _, _, _, _, heq, hvs, -⟩ := l.step_eq_of_quiet ev h
  rw [heq]
  exact ⟨rfl, rfl, ⟨batchDigests, rfl⟩, hvs, rfl, rfl, rfl⟩

omit [BatchStore BS] [TxIndex TI] in
theorem foldl_handleCertificateMessage_eq (l : Looseberry BS CS TI) :
    ∃ primary dag certStore orphanCerts flow,
      certs.foldl (fun l cert => l.handleCertificateMessage env cert) l =
        { l with primary, dag, certStore, orphanCerts, flow } := by
  induction certs generalizing l with
  | nil => exact ⟨l.primary, l.dag, l.certStore, l.orphanCerts, l.flow, rfl⟩
  | cons cert certs ih =>
    obtain ⟨dag, certStore, orphanCerts, flow, h⟩ := l.handleCertificateMessage_eq env cert
    obtain ⟨primary', dag', certStore', orphanCerts', flow', h'⟩ :=
      ih (l.handleCertificateMessage env cert)
    refine ⟨primary', dag', certStore', orphanCerts', flow', ?_⟩
    rw [List.foldl_cons, h', h]

theorem step_gc [SliceSort] (h : l.collecting ev.1 = none) :
    (l.step ev).1.gc = l.gc ∧ (l.step ev).1.cfg = l.cfg := by
  cases hquiet : quiet ev.1 with
  | true => exact ⟨(l.step_alike ev hquiet).gc, (l.step_alike ev hquiet).cfg⟩
  | false =>
    obtain ⟨ev, env⟩ := ev
    cases ev with
    | notifyCommitted | gcTick => exact absurd h (by simp [collecting])
    | updateValidatorSet | voteMessage | headerTick | voteCleanupTick => exact ⟨rfl, rfl⟩
    | certificateMessage cert =>
      obtain ⟨_, _, _, _, heq⟩ := l.handleCertificateMessage_eq env cert
      show (l.handleCertificateMessage env cert).gc = l.gc ∧
        (l.handleCertificateMessage env cert).cfg = l.cfg
      rw [heq]
      exact ⟨rfl, rfl⟩
    | syncResponse resp sender =>
      show (l.handleSyncResponse env resp sender).gc = l.gc ∧
        (l.handleSyncResponse env resp sender).cfg = l.cfg
      obtain ⟨_, _, _, _, _, heq⟩ := foldl_handleCertificateMessage_eq env
        (l.takeSyncResponse resp sender).1 (l.takeSyncResponse resp sender).2
      rw [handleSyncResponse, heq]
      exact ⟨rfl, rfl⟩
    | _ => exact absurd hquiet (by simp [quiet])

omit [BatchStore BS] [TxIndex TI] in
theorem mem_headerTick [SliceSort] {l : Looseberry BS CS TI} {env : Env} {header : Header} :
    .broadcastHeader header ∈ (l.headerTick env).2 ↔
      (l.primary.tryCreateHeader l.certStore onCertificateFormed
        { dag := l.dag, flow := l.flow, certs := [] } l.pool.hasBatchAckQuorum env.votes
        env.now).1 = some header := by
  refine ⟨fun h => ?_, fun h => ?_⟩
  · rcases List.mem_append.mp h with hcert | hheader
    · obtain ⟨cert, -, hcert⟩ := List.mem_map.mp hcert
      cases hcert
    · obtain ⟨header', hheader', heq⟩ := List.mem_map.mp hheader
      cases heq
      exact Option.mem_toList.mp hheader'
  · exact List.mem_append_right _ (List.mem_map_of_mem (Option.mem_toList.mpr h))

omit [BatchStore BS] [TxIndex TI] in
/-- What a header tick does with the queue. -/
theorem headerTick_ticked [SliceSort] (l : Looseberry BS CS TI) (env : Env) :
    ∃ made digests rest, (∀ header, .broadcastHeader header ∈ (l.headerTick env).2 ↔
        made = some header) ∧
      l.primary.Ticked l.certStore l.pool.hasBatchAckQuorum env.now
        (made, (l.headerTick env).1.primary) digests rest := by
  obtain ⟨digests, rest, h⟩ := l.primary.tryCreateHeader_ticked l.certStore onCertificateFormed
    { dag := l.dag, flow := l.flow, certs := [] } l.pool.hasBatchAckQuorum env.votes env.now
  exact ⟨_, digests, rest, fun _ => mem_headerTick, h⟩

omit [Crypto] in
/-- An event sets the validators, or it does not. -/
theorem validators_cases (ev : Event × Env) :
    (∃ vs env, ev = (.updateValidatorSet vs, env)) ∨ ∀ vs, ev.1 ≠ .updateValidatorSet vs := by
  obtain ⟨ev, env⟩ := ev
  cases ev with
  | updateValidatorSet vs => exact .inl ⟨vs, env, rfl⟩
  | _ => exact .inr fun _ => by simp

def validatorsAfter (l : Looseberry BS CS TI) : Event → SimpleValidatorSet
  | .updateValidatorSet vs => vs
  | _ => l.primary.validatorSet

omit [BatchStore BS] [CertificateStore CS] [TxIndex TI] in
theorem validatorsAfter_of_ne {l : Looseberry BS CS TI} {ev : Event}
    (h : ∀ vs, ev ≠ .updateValidatorSet vs) :
    l.validatorsAfter ev = l.primary.validatorSet := by
  cases ev with
  | updateValidatorSet vs => exact absurd rfl (h vs)
  | _ => rfl

omit [BatchStore BS] [TxIndex TI] in
theorem foldl_handleCertificateMessage_voted (l : Looseberry BS CS TI) :
    l.primary.Voted
      (certs.foldl (fun l cert => l.handleCertificateMessage env cert) l).primary := by
  induction certs generalizing l with
  | nil => exact .refl _
  | cons cert certs ih =>
    obtain ⟨_, _, _, _, heq⟩ := l.handleCertificateMessage_eq env cert
    obtain ⟨⟨_, hround⟩, -⟩ := l.primary.handleCertificate_eq l.certStore cert
    obtain ⟨_, _, _, hrest⟩ := ih (l.handleCertificateMessage env cert)
    rw [heq, hround] at hrest
    rw [List.foldl_cons, heq, hround]
    exact ⟨_, _, _, hrest⟩

/-- Of the primary an event can change the votes and the round, and the validators and
the queue only if it is one of those for it. -/
theorem step_primary [SliceSort] :
    ∃ batchDigests,
      Primary.Voted { l.primary with validatorSet := l.validatorsAfter ev.1, batchDigests }
        (l.step ev).1.primary ∧
      (queues ev.1 = false → batchDigests = l.primary.batchDigests) := by
  cases hquiet : quiet ev.1 with
  | true =>
    obtain ⟨batchDigests, _, _, _, _, _, heq, -, hqueue, -⟩ := l.step_eq_of_quiet ev hquiet
    have hvs : l.validatorsAfter ev.1 = l.primary.validatorSet :=
      validatorsAfter_of_ne fun vs hev => by simp [hev, quiet] at hquiet
    rw [heq, hvs]
    exact ⟨batchDigests, .refl _, hqueue⟩
  | false =>
    obtain ⟨ev, env⟩ := ev
    cases ev with
    | certificateMessage cert =>
      exact ⟨_, foldl_handleCertificateMessage_voted env [cert] l, fun _ => rfl⟩
    | syncResponse resp sender =>
      exact ⟨_, foldl_handleCertificateMessage_voted env _ (l.takeSyncResponse resp sender).2,
        fun _ => rfl⟩
    | voteMessage vote => exact ⟨_, l.primary.handleVote_voted _ _ _ _ _ _, fun _ => rfl⟩
    | headerTick =>
      obtain ⟨_, _, rest, -, hticked⟩ := l.headerTick_ticked env
      exact ⟨rest, hticked.voted, fun h => absurd h (by simp [queues])⟩
    | voteCleanupTick | updateValidatorSet | gcTick => exact ⟨_, ⟨_, _, _, rfl⟩, fun _ => rfl⟩
    | notifyCommitted round =>
      obtain ⟨_, _, heq⟩ := l.notifyCommitted_eq env round
      have hprimary : (l.notifyCommitted env round).1.primary = l.primary := by rw [heq]; rfl
      exact ⟨_, ⟨_, _, _, hprimary⟩, fun _ => rfl⟩
    | _ => exact absurd hquiet (by simp [quiet])

end

end DagMempool.Looseberry
