import DagMempool.Dag.Dag
import DagMempool.Gc.Flow

/-!
# Garbage collection

Once a round is committed, everything more than `GCDepth` rounds below it goes:
rounds of the DAG, batches and certificates in the stores, transactions in the
index. Before that, transactions of batches that look uncommitted are taken out
of the index and handed to the recovery callback, which submits them again.

A collection works on components it shares with the rest of the node. They are
passed in `GCTargets`, together with the state `κ` the callback changes; the
callback runs in the middle of a collection, after the index was cleared of what
is recovered and before anything is deleted.

Two sources of "uncommitted" are tried. The index `uncommittedBatches` is used if
anything was tracked in it. Otherwise the stored batches are scanned round by
round, and a batch counts as committed if a certificate of its own round refers
to it.
-/

namespace DagMempool

structure GCConfig where
  gcDepth : UInt64
  recoverUncommittedTxs : Bool

structure GCManager where
  cfg : GCConfig
  committedRound : UInt64
  lastGCRound : UInt64
  uncommittedBatches : GoMap Hash UInt64

/-- What a collection reads and writes beside its own state. -/
structure GCTargets (BS CS TI κ : Type) where
  dag : Dag
  batchStore : BS
  certStore : CS
  txIndex : TI
  sink : κ

/-- The orders in which a collection happens to walk over maps. -/
structure GCOrders where
  certs : IterOrder Certificate
  uncommitted : IterOrder Hash

/-- The recovery callback; `none` where it is not set. -/
abbrev TxRecovery (TI κ : Type) := Option (κ → TI → List Transaction → κ)

/-- The rounds `for round := start; round < before; round++` goes through. -/
def roundsFrom (start before : UInt64) : List UInt64 :=
  (List.range (before.toNat - start.toNat)).map fun i => UInt64.ofNat (start.toNat + i)

theorem mem_roundsFrom {start before r : UInt64} :
    r ∈ roundsFrom start before ↔ start ≤ r ∧ r < before := by
  have hlt : before.toNat < UInt64.size := before.toNat_lt
  rw [roundsFrom, List.mem_map, UInt64.le_iff_toNat_le, UInt64.lt_iff_toNat_lt]
  constructor
  · rintro ⟨i, hi, rfl⟩
    rw [List.mem_range] at hi
    rw [UInt64.toNat_ofNat_of_lt' (by omega)]
    omega
  · rintro ⟨hle, hr⟩
    refine ⟨r.toNat - start.toNat, List.mem_range.mpr (by omega), ?_⟩
    rw [show start.toNat + (r.toNat - start.toNat) = r.toNat by omega]
    exact UInt64.ofNat_toNat

theorem nodup_roundsFrom (start before : UInt64) : (roundsFrom start before).Nodup := by
  have hlt : before.toNat < UInt64.size := before.toNat_lt
  refine List.Nodup.map_on (fun i hi j hj hij => ?_) List.nodup_range
  rw [List.mem_range] at hi hj
  have hnat := congrArg UInt64.toNat hij
  rw [UInt64.toNat_ofNat_of_lt' (by omega), UInt64.toNat_ofNat_of_lt' (by omega)] at hnat
  omega

namespace GCManager

def new (cfg : GCConfig) : GCManager :=
  { cfg, committedRound := 0, lastGCRound := 0, uncommittedBatches := ∅ }

def trackBatch (gc : GCManager) (digest : Hash) (round : UInt64) : GCManager :=
  { gc with uncommittedBatches := gc.uncommittedBatches.set digest round }

def markBatchesCommitted (gc : GCManager) (digests : List Hash) : GCManager :=
  { gc with uncommittedBatches := gc.uncommittedBatches.delAll digests }

def calculateGCRound (gc : GCManager) : UInt64 :=
  if gc.committedRound ≤ gc.cfg.gcDepth then 0 else gc.committedRound - gc.cfg.gcDepth

/-- `PruneRoundsBefore` on the shared DAG. -/
def pruneDag (t : GCTargets BS CS TI κ) (beforeRound : UInt64) : GCTargets BS CS TI κ :=
  { t with dag := t.dag.pruneRoundsBefore beforeRound }

/-- The committed round only goes up, and the DAG is told when it does. -/
def raiseCommitted (gc : GCManager) (t : GCTargets BS CS TI κ) (round : UInt64) :
    GCManager × GCTargets BS CS TI κ :=
  if gc.committedRound < round then
    ({ gc with committedRound := round }, { t with dag := t.dag.setCommittedRound round })
  else (gc, t)

variable {BS CS TI κ : Type} [BatchStore BS] [CertificateStore CS] [TxIndex TI]

/-- The digests the certificates of a round refer to. -/
def committedInRound (t : GCTargets BS CS TI κ) (orders : GCOrders) (round : UInt64) :
    List Hash :=
  (t.dag.getCertificatesForRound t.certStore orders.certs round).flatMap fun cert =>
    cert.header.batchRefs.map (·.digest)

/-- The batches of a round that no certificate of the round refers to. A store that
fails to list them is passed over. -/
def uncommittedInRound (t : GCTargets BS CS TI κ) (orders : GCOrders) (round : UInt64) :
    List Batch :=
  match BatchStore.getBatchesByRound t.batchStore round with
  | .error _ => []
  | .ok batches =>
    batches.filter fun b => !(committedInRound t orders round).contains b.digest

/-- `RemoveTxsForBatch` for each digest, errors ignored. -/
def removeTxs (txIndex : TI) (digests : List Hash) : TI :=
  digests.foldl (fun idx d => (TxIndex.removeTxsForBatch idx d).2) txIndex

/-- The first round the scan looks at. -/
def scanStart (gc : GCManager) : UInt64 :=
  if 0 < gc.lastGCRound then gc.lastGCRound + 1 else gc.lastGCRound

/-- The batches the scan takes for uncommitted. The scan changes the index only, so
every round is looked at in the state it starts in. -/
def scanned (gc : GCManager) (t : GCTargets BS CS TI κ) (orders : GCOrders)
    (beforeRound : UInt64) : List Batch :=
  (roundsFrom gc.scanStart beforeRound).flatMap (uncommittedInRound t orders)

def extractUncommittedTxsFallback (gc : GCManager) (t : GCTargets BS CS TI κ)
    (orders : GCOrders) (beforeRound : UInt64) :
    List Transaction × GCTargets BS CS TI κ :=
  let batches := gc.scanned t orders beforeRound
  (batches.flatMap (·.transactions),
    { t with txIndex := removeTxs t.txIndex (batches.map (·.digest)) })

def extractUncommittedTxs (gc : GCManager) (t : GCTargets BS CS TI κ) (orders : GCOrders)
    (beforeRound : UInt64) : List Transaction × GCManager × GCTargets BS CS TI κ :=
  let toRemove := orders.uncommitted.arrange
    (gc.uncommittedBatches.filter fun _ round => decide (round < beforeRound)).keys
  let txs := toRemove.flatMap fun digest =>
    match BatchStore.getBatch t.batchStore digest with
    | .ok batch => batch.transactions
    | .error _ => []
  let gc := { gc with uncommittedBatches := gc.uncommittedBatches.delAll toRemove }
  let t := { t with txIndex := removeTxs t.txIndex toRemove }
  if txs.isEmpty && toRemove.isEmpty then
    let fallback := gc.extractUncommittedTxsFallback t orders beforeRound
    (fallback.1, gc, fallback.2)
  else (txs, gc, t)

/-- The recovery part of a collection, with what the callback was called with. -/
def recoverTxs (gc : GCManager) (t : GCTargets BS CS TI κ) (orders : GCOrders)
    (recovery : TxRecovery TI κ) (beforeRound : UInt64) :
    List Transaction × GCManager × GCTargets BS CS TI κ :=
  match recovery with
  | none => ([], gc, t)
  | some callback =>
    if !gc.cfg.recoverUncommittedTxs then ([], gc, t)
    else
      let extracted := gc.extractUncommittedTxs t orders beforeRound
      let t := extracted.2.2
      if extracted.1.isEmpty then ([], extracted.2.1, t)
      else
        (extracted.1, extracted.2.1,
          { t with sink := callback t.sink t.txIndex extracted.1 })

/-- The deletions of a collection, which stop at the first error. -/
def deleteBefore (t : GCTargets BS CS TI κ) (beforeRound : UInt64) :
    Except GoError Unit × GCTargets BS CS TI κ :=
  let batches := BatchStore.deleteBatchesBefore t.batchStore beforeRound
  let t := { pruneDag t beforeRound with batchStore := batches.2 }
  match batches.1 with
  | .error err => (.error err, t)
  | .ok () =>
    let certs := CertificateStore.deleteCertificatesBefore t.certStore beforeRound
    let t := { t with certStore := certs.2 }
    match certs.1 with
    | .error err => (.error err, t)
    | .ok () =>
      let pruned := TxIndex.pruneOlderThan t.txIndex beforeRound t.batchStore
      let t := { t with txIndex := pruned.2 }
      match pruned.1 with
      | .error err => (.error err, t)
      | .ok _ => (.ok (), t)

/-- The transactions recovered, the manager and the components after a collection. -/
def performGC (gc : GCManager) (t : GCTargets BS CS TI κ) (orders : GCOrders)
    (recovery : TxRecovery TI κ) (beforeRound : UInt64) :
    List Transaction × GCManager × GCTargets BS CS TI κ :=
  let recovered := gc.recoverTxs t orders recovery beforeRound
  let deleted := deleteBefore recovered.2.2 beforeRound
  let gc := recovered.2.1
  match deleted.1 with
  | .error _ => (recovered.1, gc, deleted.2)
  | .ok () =>
    (recovered.1,
      { gc with lastGCRound :=
          if 0 < beforeRound then beforeRound - 1 else gc.lastGCRound },
      deleted.2)

/-- What `performGC` returns. -/
def performGCResult (gc : GCManager) (t : GCTargets BS CS TI κ) (orders : GCOrders)
    (recovery : TxRecovery TI κ) (beforeRound : UInt64) : Except GoError Unit :=
  (deleteBefore (gc.recoverTxs t orders recovery beforeRound).2.2 beforeRound).1

/-- The body of `NotifyCommitted`, and of a tick of the background loop, once the
committed round is set. -/
def collect (gc : GCManager) (t : GCTargets BS CS TI κ) (orders : GCOrders)
    (recovery : TxRecovery TI κ) : List Transaction × GCManager × GCTargets BS CS TI κ :=
  if gc.calculateGCRound = 0 then ([], gc, t)
  else gc.performGC t orders recovery gc.calculateGCRound

def notifyCommitted (gc : GCManager) (t : GCTargets BS CS TI κ) (orders : GCOrders)
    (recovery : TxRecovery TI κ) (round : UInt64) :
    List Transaction × GCManager × GCTargets BS CS TI κ :=
  let raised := gc.raiseCommitted t round
  raised.1.collect raised.2 orders recovery

/-! ## What a collection does to the stores

Recovery touches the index and the callback's state only, so the DAG and the
stores after a collection are those before it with everything below the round
deleted. -/

section

variable (gc : GCManager) (t : GCTargets BS CS TI κ) (orders : GCOrders)
  (recovery : TxRecovery TI κ) (r : UInt64)

theorem extractUncommittedTxs_frame :
    ∃ uncommitted txIndex, (gc.extractUncommittedTxs t orders r).2 =
      ({ gc with uncommittedBatches := uncommitted }, { t with txIndex }) := by
  unfold extractUncommittedTxs
  dsimp only
  split
  · exact ⟨_, _, rfl⟩
  · exact ⟨_, _, rfl⟩

theorem recoverTxs_frame :
    ∃ uncommitted txIndex sink, (gc.recoverTxs t orders recovery r).2 =
      ({ gc with uncommittedBatches := uncommitted }, { t with txIndex, sink }) := by
  unfold recoverTxs
  split
  · exact ⟨_, _, _, rfl⟩
  · next callback =>
      split
      · exact ⟨_, _, _, rfl⟩
      · obtain ⟨uncommitted, txIndex, hextract⟩ := gc.extractUncommittedTxs_frame t orders r
        dsimp only
        rw [hextract]
        split
        · exact ⟨_, _, _, rfl⟩
        · exact ⟨_, _, _, rfl⟩

/-- The DAG and the batches are always gone through, the certificates if that went well. -/
theorem deleteBefore_frame :
    ∃ certStore txIndex, (deleteBefore t r).2 =
        { t with
          dag := t.dag.pruneRoundsBefore r
          batchStore := (BatchStore.deleteBatchesBefore t.batchStore r).2
          certStore, txIndex } ∧
      (certStore = t.certStore ∨
        certStore = (CertificateStore.deleteCertificatesBefore t.certStore r).2) := by
  unfold deleteBefore
  dsimp only
  split
  · exact ⟨_, _, rfl, .inl rfl⟩
  · split
    · exact ⟨_, _, rfl, .inr rfl⟩
    · split
      · exact ⟨_, _, rfl, .inr rfl⟩
      · exact ⟨_, _, rfl, .inr rfl⟩

/-- A collection recovers and then deletes; whether that went well only shows in the round it
remembers. -/
theorem performGC_eq :
    ∃ lastGCRound, gc.performGC t orders recovery r =
      ((gc.recoverTxs t orders recovery r).1,
        { (gc.recoverTxs t orders recovery r).2.1 with lastGCRound },
        (deleteBefore (gc.recoverTxs t orders recovery r).2.2 r).2) := by
  unfold performGC
  dsimp only
  split
  · exact ⟨_, rfl⟩
  · exact ⟨_, rfl⟩

theorem performGC_dag :
    (gc.performGC t orders recovery r).2.2.dag = t.dag.pruneRoundsBefore r ∧
      (gc.performGC t orders recovery r).2.2.batchStore =
        (BatchStore.deleteBatchesBefore t.batchStore r).2 := by
  obtain ⟨uncommitted, txIndex, sink, hrecover⟩ := gc.recoverTxs_frame t orders recovery r
  obtain ⟨_, heq⟩ := gc.performGC_eq t orders recovery r
  obtain ⟨_, _, hdelete, -⟩ := deleteBefore_frame (gc.recoverTxs t orders recovery r).2.2 r
  rw [heq, hdelete, hrecover]
  exact ⟨rfl, rfl⟩

theorem performGC_certStore :
    (gc.performGC t orders recovery r).2.2.certStore = t.certStore ∨
      (gc.performGC t orders recovery r).2.2.certStore =
        (CertificateStore.deleteCertificatesBefore t.certStore r).2 := by
  obtain ⟨uncommitted, txIndex, sink, hrecover⟩ := gc.recoverTxs_frame t orders recovery r
  obtain ⟨_, heq⟩ := gc.performGC_eq t orders recovery r
  obtain ⟨_, _, hdelete, hstore⟩ := deleteBefore_frame (gc.recoverTxs t orders recovery r).2.2 r
  rw [hrecover] at hstore
  rw [heq, hdelete]
  exact hstore

end

variable {t : GCTargets BS CS TI κ} {gc : GCManager} {orders : GCOrders}

theorem deleteBefore_of_ok {r : UInt64} (h : (deleteBefore t r).1 = .ok ()) :
    (BatchStore.deleteBatchesBefore t.batchStore r).1 = .ok () ∧
      (CertificateStore.deleteCertificatesBefore t.certStore r).1 = .ok () ∧
      (deleteBefore t r).2.certStore =
        (CertificateStore.deleteCertificatesBefore t.certStore r).2 := by
  unfold deleteBefore at h ⊢
  dsimp only [pruneDag] at h ⊢
  cases hbatches : (BatchStore.deleteBatchesBefore t.batchStore r).1 with
  | error err =>
    rw [hbatches] at h
    cases h
  | ok _ =>
    rw [hbatches] at h
    cases hcerts : (CertificateStore.deleteCertificatesBefore t.certStore r).1 with
    | error err =>
      rw [hcerts] at h
      cases h
    | ok _ =>
      refine ⟨rfl, rfl, ?_⟩
      cases (TxIndex.pruneOlderThan t.txIndex r
        (BatchStore.deleteBatchesBefore t.batchStore r).2).1 with
      | error err => rfl
      | ok _ => rfl

theorem performGC_of_ok {recovery : TxRecovery TI κ} {r : UInt64}
    (h : gc.performGCResult t orders recovery r = .ok ()) :
    (BatchStore.deleteBatchesBefore t.batchStore r).1 = .ok () ∧
      (CertificateStore.deleteCertificatesBefore t.certStore r).1 = .ok () ∧
      (gc.performGC t orders recovery r).2.2.certStore =
        (CertificateStore.deleteCertificatesBefore t.certStore r).2 := by
  obtain ⟨uncommitted, txIndex, sink, hrecover⟩ := gc.recoverTxs_frame t orders recovery r
  obtain ⟨_, heq⟩ := gc.performGC_eq t orders recovery r
  have hdeleted := deleteBefore_of_ok h
  rw [heq]
  rw [hrecover] at hdeleted ⊢
  exact hdeleted

section

variable (gc : GCManager) (t : GCTargets BS CS TI κ) (orders : GCOrders)
  (recovery : TxRecovery TI κ)

/-- What a collection leaves of the DAG and the batches: all, or what is not below
the round it calculated. -/
theorem collect_dag :
    (gc.calculateGCRound = 0 ∧ gc.collect t orders recovery = ([], gc, t)) ∨
    (gc.calculateGCRound ≠ 0 ∧
      (gc.collect t orders recovery).2.2.dag =
        t.dag.pruneRoundsBefore gc.calculateGCRound ∧
      (gc.collect t orders recovery).2.2.batchStore =
        (BatchStore.deleteBatchesBefore t.batchStore gc.calculateGCRound).2) := by
  unfold collect
  split
  · next h => exact .inl ⟨h, rfl⟩
  · next h => exact .inr ⟨h, gc.performGC_dag t orders recovery gc.calculateGCRound⟩

theorem collect_certStore :
    (gc.collect t orders recovery).2.2.certStore = t.certStore ∨
      (gc.collect t orders recovery).2.2.certStore =
        (CertificateStore.deleteCertificatesBefore t.certStore gc.calculateGCRound).2 := by
  unfold collect
  split
  · exact .inl rfl
  · exact gc.performGC_certStore t orders recovery gc.calculateGCRound

theorem collect_sink {K : κ → Prop}
    (hcallback : ∀ callback, recovery = some callback → ∀ sink txIndex txs, K sink →
      K (callback sink txIndex txs)) (hK : K t.sink) :
    K (gc.collect t orders recovery).2.2.sink := by
  have hrecover : ∀ r, K (gc.recoverTxs t orders recovery r).2.2.sink := by
    intro r
    obtain ⟨uncommitted, txIndex, hextract⟩ := gc.extractUncommittedTxs_frame t orders r
    unfold recoverTxs
    split
    · exact hK
    · next callback =>
        split
        · exact hK
        · dsimp only
          rw [hextract]
          split
          · exact hK
          · exact hcallback callback rfl _ _ _ hK
  obtain ⟨_, heq⟩ := gc.performGC_eq t orders recovery gc.calculateGCRound
  obtain ⟨_, _, hdelete, -⟩ := deleteBefore_frame
    (gc.recoverTxs t orders recovery gc.calculateGCRound).2.2 gc.calculateGCRound
  unfold collect
  split
  · exact hK
  · rw [heq, hdelete]
    exact hrecover _

theorem collect_gc :
    (gc.collect t orders recovery).2.1.committedRound = gc.committedRound ∧
      (gc.collect t orders recovery).2.1.cfg = gc.cfg := by
  obtain ⟨uncommitted, txIndex, sink, hrecover⟩ :=
    gc.recoverTxs_frame t orders recovery gc.calculateGCRound
  obtain ⟨_, heq⟩ := gc.performGC_eq t orders recovery gc.calculateGCRound
  unfold collect
  split
  · exact ⟨rfl, rfl⟩
  · rw [heq, hrecover]
    exact ⟨rfl, rfl⟩

omit [BatchStore BS] [CertificateStore CS] [TxIndex TI] in
theorem calculateGCRound_toNat :
    gc.calculateGCRound.toNat = gc.committedRound.toNat - gc.cfg.gcDepth.toNat :=
  toNat_sub_or_zero _ _

end

/-! ## What is recovered

The node tracks no uncommitted batches, so what its collections recover is what the scan
finds. -/

/-- A certificate of the batch's own round refers to it. -/
def NamedInOwnRound (t : GCTargets BS CS TI κ) (b : Batch) : Prop :=
  ∃ cert ∈ t.dag.getCertificatesForRound t.certStore .listed b.round,
    ∃ ref ∈ cert.header.batchRefs, ref.digest = b.digest
deriving Decidable

omit [BatchStore BS] [TxIndex TI] in
theorem mem_committedInRound {b : Batch} :
    b.digest ∈ committedInRound t orders b.round ↔ NamedInOwnRound t b := by
  simp only [committedInRound, NamedInOwnRound, List.mem_flatMap, List.mem_map,
    Dag.mem_getCertificatesForRound orders.certs]

omit [TxIndex TI] in
/-- What the scan finds in a store whose lists of a round are of what it has. -/
theorem mem_scanned_of_byRound {g : UInt64} {b : Batch}
    (hlist : ∀ {r bs}, BatchStore.getBatchesByRound t.batchStore r = .ok bs →
      (b ∈ bs ↔ BatchStore.getBatch t.batchStore b.digest = .ok b ∧ b.round = r)) :
    b ∈ gc.scanned t orders g ↔
      (gc.scanStart ≤ b.round ∧ b.round < g) ∧
        (∃ bs, BatchStore.getBatchesByRound t.batchStore b.round = .ok bs) ∧
        BatchStore.getBatch t.batchStore b.digest = .ok b ∧ ¬ NamedInOwnRound t b := by
  have hround : ∀ r, b ∈ uncommittedInRound t orders r ↔
      b.round = r ∧ (∃ bs, BatchStore.getBatchesByRound t.batchStore r = .ok bs) ∧
        BatchStore.getBatch t.batchStore b.digest = .ok b ∧ ¬ NamedInOwnRound t b := by
    intro r
    unfold uncommittedInRound
    split
    · next err herr => simp [herr]
    · next bs hbs =>
        rw [List.mem_filter, hlist hbs]
        constructor
        · rintro ⟨⟨hget, rfl⟩, hfree⟩
          refine ⟨rfl, ⟨bs, hbs⟩, hget, fun hnamed => ?_⟩
          rw [List.contains_iff_mem.mpr (mem_committedInRound.mpr hnamed)] at hfree
          cases hfree
        · rintro ⟨rfl, -, hget, hfree⟩
          refine ⟨⟨hget, rfl⟩, ?_⟩
          rw [Bool.not_eq_true', ← Bool.not_eq_true, List.contains_iff_mem, mem_committedInRound]
          exact hfree
  rw [scanned, List.mem_flatMap]
  constructor
  · rintro ⟨r, hr, hb⟩
    obtain ⟨rfl, hrest⟩ := (hround r).mp hb
    exact ⟨mem_roundsFrom.mp hr, hrest⟩
  · rintro ⟨hr, hrest⟩
    exact ⟨b.round, mem_roundsFrom.mpr hr, (hround b.round).mpr ⟨rfl, hrest⟩⟩

omit [TxIndex TI] in
theorem mem_scanned [LawfulBatchStore BS] {g : UInt64} {b : Batch} :
    b ∈ gc.scanned t orders g ↔
      (gc.scanStart ≤ b.round ∧ b.round < g) ∧
        (∃ bs, BatchStore.getBatchesByRound t.batchStore b.round = .ok bs) ∧
        BatchStore.getBatch t.batchStore b.digest = .ok b ∧ ¬ NamedInOwnRound t b :=
  mem_scanned_of_byRound LawfulBatchStore.byRound

/-- Where nothing is tracked, the scan is all there is. -/
theorem extractUncommittedTxs_untracked (h : gc.uncommittedBatches = ∅) (t : GCTargets BS CS TI κ)
    (orders : GCOrders) (g : UInt64) :
    gc.extractUncommittedTxs t orders g =
      ((gc.extractUncommittedTxsFallback t orders g).1, gc,
        (gc.extractUncommittedTxsFallback t orders g).2) := by
  have hkeys : orders.uncommitted.arrange
      (gc.uncommittedBatches.filter fun _ round => decide (round < g)).keys = [] := by
    rw [h]
    exact List.perm_nil.mp (orders.uncommitted.perm _)
  unfold extractUncommittedTxs
  rw [hkeys]
  cases gc
  cases h
  rfl

theorem recoverTxs_untracked (h : gc.uncommittedBatches = ∅) (t : GCTargets BS CS TI κ)
    (orders : GCOrders) (recovery : TxRecovery TI κ) (g : UInt64) :
    (gc.recoverTxs t orders recovery g).2.1 = gc ∧
      (gc.recoverTxs t orders recovery g).1 =
        if recovery.isSome && gc.cfg.recoverUncommittedTxs then
          (gc.scanned t orders g).flatMap (·.transactions)
        else [] := by
  unfold recoverTxs
  cases recovery with
  | none => exact ⟨rfl, rfl⟩
  | some callback =>
    rw [extractUncommittedTxs_untracked h]
    cases hon : gc.cfg.recoverUncommittedTxs with
    | false => exact ⟨rfl, rfl⟩
    | true =>
      dsimp only
      split
      · next hbad => cases hbad
      · split
        · next hempty => exact ⟨rfl, (List.isEmpty_iff.mp hempty).symm⟩
        · exact ⟨rfl, rfl⟩

theorem performGC_recovered (gc : GCManager) (t : GCTargets BS CS TI κ) (orders : GCOrders)
    (recovery : TxRecovery TI κ) (g : UInt64) :
    (gc.performGC t orders recovery g).1 = (gc.recoverTxs t orders recovery g).1 := by
  obtain ⟨_, heq⟩ := gc.performGC_eq t orders recovery g
  rw [heq]

theorem collect_untracked (h : gc.uncommittedBatches = ∅) (t : GCTargets BS CS TI κ)
    (orders : GCOrders) (recovery : TxRecovery TI κ) :
    (gc.collect t orders recovery).2.1.uncommittedBatches = ∅ := by
  obtain ⟨_, heq⟩ := gc.performGC_eq t orders recovery gc.calculateGCRound
  unfold collect
  split
  · exact h
  · rw [heq, (recoverTxs_untracked h t orders recovery gc.calculateGCRound).1]
    exact h

end GCManager

end DagMempool
