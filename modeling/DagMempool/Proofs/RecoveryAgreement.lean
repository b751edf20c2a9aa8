import DagMempool.Gc.Gc
import DagMempool.Lib.Run
import DagMempool.Store.MemoryTxIndex
import DagMempool.Store.RoundLists
import DagMempool.Types.Ideal

/-!
# Two ways to find what is not committed

A collection takes the batches to recover from an index, which is to be told of every batch that
is saved and of every digest a certificate refers to. With nothing in the index to collect, it
scans the stored batches of each round against the certificates of the same round.

The index forgets a batch whichever round the certificate is of, and knows of batches whatever
round they are saved for; the scan does neither. So the two agree where a batch is saved for a
round that is still to be scanned and before it is certified, and certified in its own round.
What carries this through a run is that the index has of the stored batches just those that no
certificate of their round in memory refers to, under their own rounds.
-/

namespace DagMempool

/-- A collector and what it works on. -/
structure Tracking (BS CS TI κ : Type) where
  gc : GCManager
  targets : GCTargets BS CS TI κ

/-- What happens to the stores, the DAG and the collector. Every way to start a collection is
made of the last two. -/
inductive TrackingEvent (TI κ : Type) where
  | saveBatch (b : Batch)
  | addCertificate (cert : Certificate)
  | raiseCommitted (round : UInt64)
  | performGC (orders : GCOrders) (recovery : TxRecovery TI κ) (beforeRound : UInt64)

theorem flatMap_eq_filterMap {α β γ : Type} {h : α → List γ} {f : α → Option β} {g : β → List γ}
    (heq : ∀ a, h a = (f a).elim [] g) (l : List α) :
    l.flatMap h = (l.filterMap f).flatMap g := by
  induction l with
  | nil => rfl
  | cons a l ih =>
    rw [List.flatMap_cons, ih, heq, List.filterMap_cons]
    cases f a with
    | none => rfl
    | some b => rfl

def Certificate.batchDigests (cert : Certificate) : List Hash :=
  cert.header.batchRefs.map (·.digest)

namespace Dag

theorem rounds_ensureRound_eq_none {d : Dag} {round r : UInt64} :
    (d.ensureRound round).rounds.get r = none ↔ r ≠ round ∧ d.rounds.get r = none := by
  unfold ensureRound
  split
  · next rd hrd =>
      refine ⟨fun hr => ⟨?_, hr⟩, And.right⟩
      rintro rfl
      exact absurd (hrd.symm.trans hr) (by simp)
  · rw [GoMap.get_set]
    split
    · next he => simp [he]
    · next hne => simp [hne]

theorem rounds_insertCertificate_eq_none {d : Dag} {c : Certificate} {r : UInt64} :
    (d.insertCertificate c).rounds.get r = none ↔ r ≠ c.round ∧ d.rounds.get r = none := by
  have hrounds : (d.insertCertificate c).rounds = d.rounds.set c.round
      (((d.rounds.get c.round).getD (.new c.round)).addCertificate c) := rfl
  rw [hrounds, GoMap.get_set]
  split
  · next he => simp [he]
  · next hne => simp [hne]

theorem rounds_setCommittedRound_eq_none {d : Dag} {round r : UInt64} :
    (d.setCommittedRound round).rounds.get r = none ↔ d.rounds.get r = none := by
  simp only [Option.eq_none_iff_forall_ne_some, ne_eq, setCommittedRound, GoMap.get_map_eq_some]
  constructor
  · intro h rd hrd
    exact h _ ⟨rd, hrd, rfl⟩
  · rintro h _ ⟨rd, hrd, -⟩
    exact h rd hrd

end Dag

namespace GCManager

theorem scanStart_pred_le (gc : GCManager) (g : UInt64) :
    { gc with lastGCRound := g - 1 }.scanStart ≤ g := by
  unfold scanStart
  split
  · rw [UInt64.sub_add_cancel]
    exact UInt64.le_refl g
  · next hzero =>
      refine UInt64.not_lt.mp fun hlt => hzero ?_
      exact Nat.lt_of_le_of_lt (Nat.zero_le _) hlt

section

variable {BS CS TI κ : Type} [BatchStore BS] [CertificateStore CS] [TxIndex TI]
variable {gc : GCManager} {digest : Hash} {g : UInt64}

theorem get_extractUncommittedTxs (h : ∀ r, gc.uncommittedBatches.get digest = some r → g ≤ r)
    (t : GCTargets BS CS TI κ) (orders : GCOrders) :
    (gc.extractUncommittedTxs t orders g).2.1.uncommittedBatches.get digest =
      gc.uncommittedBatches.get digest := by
  have hkept : digest ∉ orders.uncommitted.arrange
      (gc.uncommittedBatches.filter fun _ round => decide (round < g)).keys := by
    rw [IterOrder.mem_arrange, GoMap.mem_keys, GoMap.has_iff]
    rintro ⟨r, hr⟩
    obtain ⟨hr, hlt⟩ := GoMap.get_filter_eq_some.mp hr
    exact UInt64.not_lt.mpr (h r hr) (of_decide_eq_true hlt)
  have hindex : (gc.extractUncommittedTxs t orders g).2.1.uncommittedBatches =
      gc.uncommittedBatches.delAll (orders.uncommitted.arrange
        (gc.uncommittedBatches.filter fun _ round => decide (round < g)).keys) := by
    unfold extractUncommittedTxs
    dsimp only
    split
    · rfl
    · rfl
  rw [hindex, GoMap.get_delAll, if_neg hkept]

theorem get_performGC (h : ∀ r, gc.uncommittedBatches.get digest = some r → g ≤ r)
    (t : GCTargets BS CS TI κ) (orders : GCOrders) (recovery : TxRecovery TI κ) :
    (gc.performGC t orders recovery g).2.1.uncommittedBatches.get digest =
      gc.uncommittedBatches.get digest := by
  obtain ⟨_, heq⟩ := gc.performGC_eq t orders recovery g
  rw [heq]
  unfold recoverTxs
  split
  · rfl
  · split
    · rfl
    · dsimp only
      split
      · exact get_extractUncommittedTxs h t orders
      · exact get_extractUncommittedTxs h t orders

theorem scanStart_performGC_le {r : UInt64} (hstart : gc.scanStart ≤ r) (hg : g ≤ r)
    (t : GCTargets BS CS TI κ) (orders : GCOrders) (recovery : TxRecovery TI κ) :
    (gc.performGC t orders recovery g).2.1.scanStart ≤ r := by
  obtain ⟨uncommitted, txIndex, sink, hrecover⟩ := gc.recoverTxs_frame t orders recovery g
  unfold performGC
  dsimp only
  rw [hrecover]
  split
  · exact hstart
  · split
    · exact UInt64.le_trans (scanStart_pred_le _ g) hg
    · exact hstart

end

end GCManager

namespace Tracking

section

variable {BS CS TI κ : Type} [BatchStore BS] [CertificateStore CS] [TxIndex TI]

/-- Every batch saved is tracked, and every digest that a certificate added to the DAG refers
to is marked. The output of a collection is what it recovers. -/
def step (s : Tracking BS CS TI κ) :
    TrackingEvent TI κ → Tracking BS CS TI κ × List Transaction
  | .saveBatch b =>
    ({ gc := s.gc.trackBatch b.digest b.round
       targets :=
        { s.targets with batchStore := (BatchStore.saveBatch s.targets.batchStore b).2 } }, [])
  | .addCertificate cert =>
    let added := s.targets.dag.addCertificate s.targets.certStore cert
    ({ gc :=
        if s.targets.dag.Admits s.targets.certStore cert then
          s.gc.markBatchesCommitted cert.batchDigests
        else s.gc
       targets := { s.targets with dag := added.2.1, certStore := added.2.2 } }, [])
  | .raiseCommitted round =>
    let raised := s.gc.raiseCommitted s.targets round
    ({ gc := raised.1, targets := raised.2 }, [])
  | .performGC orders recovery beforeRound =>
    let collected := s.gc.performGC s.targets orders recovery beforeRound
    ({ gc := collected.2.1, targets := collected.2.2 }, collected.1)

def storedRound (store : BS) (digest : Hash) : Option UInt64 :=
  (BatchStore.getBatch store digest).toOption.map (·.round)

/-- A batch is saved for a round still to be scanned in which no certificate refers to it, and
under no digest of a batch of another round; a certificate that is added refers to no stored
batch of another round. -/
def InPlace (s : Tracking BS CS TI κ) : TrackingEvent TI κ → Prop
  | .saveBatch b =>
    s.gc.scanStart ≤ b.round ∧ ¬ GCManager.NamedInOwnRound s.targets b ∧
      ∀ r ∈ storedRound s.targets.batchStore b.digest, r = b.round
  | .addCertificate cert =>
    s.targets.dag.Admits s.targets.certStore cert →
      ∀ ref ∈ cert.header.batchRefs, ∀ r ∈ storedRound s.targets.batchStore ref.digest,
        r = cert.round
  | .raiseCommitted _ => True
  | .performGC _ _ _ => True

-- Not by going through all rounds.
instance (store : BS) (digest : Hash) (round : UInt64) :
    Decidable (∀ r ∈ storedRound store digest, r = round) :=
  Option.decidableForallMem _

instance (s : Tracking BS CS TI κ) : DecidablePred s.InPlace
  | .saveBatch _ => inferInstanceAs (Decidable (_ ≤ _ ∧ ¬ GCManager.NamedInOwnRound _ _ ∧
      ∀ r ∈ storedRound _ _, r = _))
  | .addCertificate cert => inferInstanceAs (Decidable (Dag.Admits _ _ _ →
      ∀ ref ∈ cert.header.batchRefs, ∀ r ∈ storedRound _ ref.digest, r = _))
  | .raiseCommitted _ | .performGC _ _ _ => .isTrue trivial

/-- Both ways to find what to recover below a round give the same transactions, each as often,
in whatever order either goes through its maps. -/
def Agree (s : Tracking BS CS TI κ) (g : UInt64) : Prop :=
  ∀ orders orders', (s.gc.extractUncommittedTxs s.targets orders g).1.Perm
    (s.gc.extractUncommittedTxsFallback s.targets orders' g).1

end

/-! ## What the index is to be

The index is right about a stored batch if it has it under its round, or if a certificate of this
round in memory refers to it. -/

section

variable {BS CS TI κ : Type} [CertificateStore CS]

/-- A certificate in memory, of the batch's round, refers to it. -/
def NamedInMemory (d : Dag) (b : Batch) : Prop :=
  ∃ a c, d.slot b.round a = some c ∧ b.digest ∈ c.batchDigests

theorem named_iff_mem {t : GCTargets BS CS TI κ} {b : Batch} :
    GCManager.NamedInOwnRound t b ↔
      ∃ c ∈ t.dag.getCertificatesForRound t.certStore .listed b.round,
        b.digest ∈ c.batchDigests := by
  simp only [GCManager.NamedInOwnRound, Certificate.batchDigests, List.mem_map]

theorem named_of_rounds_get {t : GCTargets BS CS TI κ} {b : Batch} {rd : RoundData}
    (h : t.dag.rounds.get b.round = some rd) :
    GCManager.NamedInOwnRound t b ↔ NamedInMemory t.dag b := by
  rw [named_iff_mem, Dag.getCertificatesForRound, h]
  simp only [RoundData.getAllCertificates, IterOrder.mem_arrange, GoMap.mem_values, NamedInMemory,
    Dag.slot, h]
  constructor
  · rintro ⟨c, ⟨a, ha⟩, hc⟩
    exact ⟨a, c, ha, hc⟩
  · rintro ⟨a, c, ha, hc⟩
    exact ⟨c, ⟨a, ha⟩, hc⟩

theorem not_namedInMemory_of_none {d : Dag} {b : Batch} (h : d.rounds.get b.round = none) :
    ¬ NamedInMemory d b := by
  rintro ⟨a, c, hslot, -⟩
  rw [Dag.slot, h] at hslot
  cases hslot

variable {cert : Certificate} {orders : GCOrders}

theorem namedInMemory_insert {d : Dag} {b : Batch} (hfree : d.slot cert.round cert.author = none) :
    NamedInMemory ((d.ensureRound cert.round).insertCertificate cert) b ↔
      NamedInMemory d b ∨ b.round = cert.round ∧ b.digest ∈ cert.batchDigests := by
  simp only [NamedInMemory, Dag.slot_insertCertificate, Dag.slot_ensureRound]
  constructor
  · rintro ⟨a, c, hc, hdigest⟩
    split at hc
    · next he =>
        obtain rfl := Option.some.inj hc
        exact .inr ⟨he.1, hdigest⟩
    · exact .inl ⟨a, c, hc, hdigest⟩
  · rintro (⟨a, c, hc, hdigest⟩ | ⟨hround, hdigest⟩)
    · refine ⟨a, c, ?_, hdigest⟩
      rw [if_neg, hc]
      rintro ⟨hr, rfl⟩
      rw [hr, hfree] at hc
      cases hc
    · exact ⟨cert.author, cert, if_pos ⟨hround, rfl⟩, hdigest⟩

/-- What the index has to say about a batch that is stored. -/
structure Kept (s : Tracking BS CS TI κ) (b : Batch) : Prop where
  indexed : s.gc.uncommittedBatches.get b.digest = none ∧ NamedInMemory s.targets.dag b ∨
    s.gc.uncommittedBatches.get b.digest = some b.round ∧ ¬ NamedInMemory s.targets.dag b
  ahead : s.gc.scanStart ≤ b.round
  /-- A certificate that is refused leaves its round in memory and empty, which hides what is
  stored of the round. -/
  unlisted : s.targets.dag.rounds.get b.round = none →
    ∀ c ∈ listedCertificates s.targets.certStore b.round, b.digest ∉ c.batchDigests

variable {s : Tracking BS CS TI κ} {b : Batch}

theorem Kept.named_iff (h : s.Kept b) :
    GCManager.NamedInOwnRound s.targets b ↔ NamedInMemory s.targets.dag b := by
  cases hr : s.targets.dag.rounds.get b.round with
  | some rd => exact named_of_rounds_get hr
  | none =>
    refine iff_of_false ?_ (not_namedInMemory_of_none hr)
    rw [named_iff_mem, Dag.getCertificatesForRound_of_none hr]
    rintro ⟨c, hc, hdigest⟩
    exact h.unlisted hr c hc hdigest

theorem Kept.of_not_named (hindex : s.gc.uncommittedBatches.get b.digest = some b.round)
    (hnamed : ¬ GCManager.NamedInOwnRound s.targets b) (hahead : s.gc.scanStart ≤ b.round) :
    s.Kept b := by
  refine ⟨.inr ⟨hindex, ?_⟩, hahead, ?_⟩
  · cases hr : s.targets.dag.rounds.get b.round with
    | some rd => exact fun hmem => hnamed ((named_of_rounds_get hr).mpr hmem)
    | none => exact not_namedInMemory_of_none hr
  · intro hr c hc hdigest
    refine hnamed (named_iff_mem.mpr ⟨c, ?_, hdigest⟩)
    rw [Dag.getCertificatesForRound_of_none hr]
    exact hc

/-- A batch is kept as long as its entry, the slots of its round, the first round to scan and
what memory hides stay as they are. -/
theorem Kept.congr {s' : Tracking BS CS TI κ} (h : s.Kept b)
    (hindex : s'.gc.uncommittedBatches.get b.digest = s.gc.uncommittedBatches.get b.digest)
    (hslot : ∀ a, s'.targets.dag.slot b.round a = s.targets.dag.slot b.round a)
    (hahead : s'.gc.scanStart ≤ b.round)
    (hhidden : s'.targets.dag.rounds.get b.round = none →
      s.targets.dag.rounds.get b.round = none ∧
        ∀ c ∈ listedCertificates s'.targets.certStore b.round,
          c ∈ listedCertificates s.targets.certStore b.round) : s'.Kept b := by
  refine ⟨?_, hahead, fun hr c hc => ?_⟩
  · rw [hindex]
    simp only [NamedInMemory, hslot]
    exact h.indexed
  · obtain ⟨hr, hlisted⟩ := hhidden hr
    exact h.unlisted hr c (hlisted c hc)

/-- The digests the index gives for a collection. -/
def due (s : Tracking BS CS TI κ) (orders : GCOrders) (g : UInt64) : List Hash :=
  orders.uncommitted.arrange
    (s.gc.uncommittedBatches.filter fun _ round => decide (round < g)).keys

omit [CertificateStore CS] in
theorem mem_due {g : UInt64} {digest : Hash} :
    digest ∈ s.due orders g ↔ ∃ r, s.gc.uncommittedBatches.get digest = some r ∧ r < g := by
  rw [due, IterOrder.mem_arrange, GoMap.mem_keys, GoMap.has_iff]
  simp only [GoMap.get_filter_eq_some, decide_eq_true_eq]

variable [BatchStore BS]

def dueBatches (s : Tracking BS CS TI κ) (orders : GCOrders) (g : UInt64) : List Batch :=
  (s.due orders g).filterMap fun digest =>
    (BatchStore.getBatch s.targets.batchStore digest).toOption

omit [CertificateStore CS] in
theorem mem_dueBatches_iff {g : UInt64} :
    b ∈ s.dueBatches orders g ↔
      ∃ digest, (∃ r, s.gc.uncommittedBatches.get digest = some r ∧ r < g) ∧
        BatchStore.getBatch s.targets.batchStore digest = .ok b := by
  simp only [dueBatches, List.mem_filterMap, toOption_eq_some, mem_due]

theorem extractUncommittedTxs_eq [TxIndex TI] (s : Tracking BS CS TI κ) (orders : GCOrders)
    (g : UInt64) :
    (s.gc.extractUncommittedTxs s.targets orders g).1 =
      if s.due orders g = [] then (s.gc.extractUncommittedTxsFallback s.targets orders g).1
      else (s.dueBatches orders g).flatMap (·.transactions) := by
  unfold GCManager.extractUncommittedTxs
  rw [← due]
  by_cases hdue : s.due orders g = []
  · rw [if_pos hdue, hdue]
    rfl
  · rw [if_neg hdue, if_neg (by simp [hdue])]
    refine flatMap_eq_filterMap (fun digest => ?_) _
    cases BatchStore.getBatch s.targets.batchStore digest with
    | ok batch => rfl
    | error err => rfl

/-- A batch to recover: stored below the round, and its own round does not refer to it. -/
def ToRecover (s : Tracking BS CS TI κ) (g : UInt64) (b : Batch) : Prop :=
  BatchStore.getBatch s.targets.batchStore b.digest = .ok b ∧ b.round < g ∧
    ¬ GCManager.NamedInOwnRound s.targets b

variable [ListsBatches BS] [TalliesRounds CS]

/-- The states of a run that keeps batches and certificates in place. -/
structure Indexed (s : Tracking BS CS TI κ) : Prop where
  batches : ListsBatches.sound s.targets.batchStore
  certificates : TalliesRounds.sound s.targets.certStore
  kept : ∀ b, BatchStore.getBatch s.targets.batchStore b.digest = .ok b → s.Kept b

/-- A new collector and a new DAG, over stores in order and of which that for batches is
empty. -/
structure Fresh (s : Tracking BS CS TI κ) : Prop where
  gc : ∃ cfg, s.gc = .new cfg
  dag : ∃ cfg, s.targets.dag = .new cfg
  batches : ListsBatches.sound s.targets.batchStore
  empty : ∀ digest b, BatchStore.getBatch s.targets.batchStore digest ≠ .ok b
  certificates : TalliesRounds.sound s.targets.certStore

theorem Fresh.indexed (h : s.Fresh) : s.Indexed :=
  ⟨h.batches, h.certificates, fun b hb => absurd hb (h.empty b.digest b)⟩

/-! ## Agreement

In such a state both ways go through the same batches: each through a list without
repetitions, and what is in the one is in the other. -/

theorem Indexed.mem_dueBatches (h : s.Indexed) {g : UInt64} :
    b ∈ s.dueBatches orders g ↔ s.ToRecover g b := by
  rw [mem_dueBatches_iff]
  constructor
  · rintro ⟨digest, ⟨r, hr, hlt⟩, hb⟩
    obtain rfl := ListsBatches.digest_eq h.batches hb
    have hkept := h.kept b hb
    rcases hkept.indexed with ⟨hnone, -⟩ | ⟨hsome, hfree⟩
    · rw [hnone] at hr
      cases hr
    · rw [hsome] at hr
      obtain rfl := Option.some.inj hr
      exact ⟨hb, hlt, fun hnamed => hfree (hkept.named_iff.mp hnamed)⟩
  · rintro ⟨hb, hlt, hfree⟩
    have hkept := h.kept b hb
    rcases hkept.indexed with ⟨-, hnamed⟩ | ⟨hsome, -⟩
    · exact absurd (hkept.named_iff.mpr hnamed) hfree
    · exact ⟨b.digest, ⟨b.round, hsome, hlt⟩, hb⟩

theorem Indexed.mem_scanned (h : s.Indexed) {g : UInt64} :
    b ∈ s.gc.scanned s.targets orders g ↔ s.ToRecover g b := by
  have hlist : ∀ {r bs}, BatchStore.getBatchesByRound s.targets.batchStore r = .ok bs →
      (b ∈ bs ↔ BatchStore.getBatch s.targets.batchStore b.digest = .ok b ∧ b.round = r) := by
    intro r bs hbs
    obtain ⟨bs', hbs', -, hmem⟩ := ListsBatches.lists r h.batches
    rw [hbs] at hbs'
    cases hbs'
    exact hmem b
  rw [GCManager.mem_scanned_of_byRound hlist]
  constructor
  · rintro ⟨⟨-, hlt⟩, -, hb, hfree⟩
    exact ⟨hb, hlt, hfree⟩
  · rintro ⟨hb, hlt, hfree⟩
    obtain ⟨bs, hbs, -⟩ := ListsBatches.lists b.round h.batches
    exact ⟨⟨(h.kept b hb).ahead, hlt⟩, ⟨bs, hbs⟩, hb, hfree⟩

theorem Indexed.nodup_dueBatches (h : s.Indexed) (orders : GCOrders) (g : UInt64) :
    (s.dueBatches orders g).Nodup := by
  refine List.Nodup.filterMap ?_ ((orders.uncommitted.perm _).nodup_iff.mpr (GoMap.nodup_keys _))
  intro d d' b hd hd'
  rw [Option.mem_def, toOption_eq_some] at hd hd'
  rw [← ListsBatches.digest_eq h.batches hd, ← ListsBatches.digest_eq h.batches hd']

theorem Indexed.nodup_scanned (h : s.Indexed) (orders : GCOrders) (g : UInt64) :
    (s.gc.scanned s.targets orders g).Nodup := by
  have hround : ∀ r, (GCManager.uncommittedInRound s.targets orders r).Nodup ∧
      ∀ b ∈ GCManager.uncommittedInRound s.targets orders r, b.round = r := by
    intro r
    obtain ⟨bs, hbs, hnodup, hmem⟩ := ListsBatches.lists r h.batches
    rw [GCManager.uncommittedInRound, hbs]
    exact ⟨hnodup.filter _, fun b hb => ((hmem b).mp (List.mem_of_mem_filter hb)).2⟩
  refine List.nodup_flatMap.mpr ⟨fun r _ => (hround r).1, ?_⟩
  refine (nodup_roundsFrom _ _).imp fun hne b hb hb' => hne ?_
  exact ((hround _).2 b hb).symm.trans ((hround _).2 b hb')

theorem Indexed.agree [TxIndex TI] (h : s.Indexed) (g : UInt64) : s.Agree g := by
  intro orders orders'
  have hscan : ∀ {bs : List Batch}, bs.Nodup → (∀ b, b ∈ bs ↔ s.ToRecover g b) →
      (bs.flatMap (·.transactions)).Perm
        (s.gc.extractUncommittedTxsFallback s.targets orders' g).1 := by
    intro bs hnodup hmem
    refine List.Perm.flatMap_right _ ?_
    refine (List.perm_ext_iff_of_nodup hnodup (h.nodup_scanned orders' g)).mpr fun b => ?_
    exact (hmem b).trans h.mem_scanned.symm
  rw [extractUncommittedTxs_eq]
  split
  · exact hscan (h.nodup_scanned orders g) fun b => h.mem_scanned
  · exact hscan (h.nodup_dueBatches orders g) fun b => h.mem_dueBatches

/-! ## What each step keeps

A save puts a batch into both, a certificate takes its batches out of both, and a collection
leaves the rounds it does not reach. -/

variable [TxIndex TI]

theorem Indexed.saveBatch (h : s.Indexed) (hok : s.InPlace (.saveBatch b)) :
    (s.step (.saveBatch b)).1.Indexed := by
  obtain ⟨hahead, hfree, hsame⟩ := hok
  refine ⟨ListsBatches.sound_save b h.batches, h.certificates, fun b' hb' => ?_⟩
  have hold := ListsBatches.get_save h.batches hb'
  by_cases hdigest : b'.digest = b.digest
  · have hround : b'.round = b.round := by
      rcases hold with hold | rfl
      · refine hsame b'.round ?_
        rw [← hdigest, storedRound, hold]
        rfl
      · rfl
    refine Kept.of_not_named ?_ ?_ (by rw [hround]; exact hahead)
    · show (s.gc.uncommittedBatches.set b.digest b.round).get b'.digest = some b'.round
      rw [hdigest, hround, GoMap.get_set_self]
    · rw [named_iff_mem, hdigest, hround, ← named_iff_mem]
      exact hfree
  · have hkept := h.kept b' (hold.resolve_right fun he => hdigest (by rw [he]))
    exact hkept.congr (GoMap.get_set_ne hdigest) (fun _ => rfl) hkept.ahead
      fun hr => ⟨hr, fun _ hc => hc⟩

theorem Indexed.refused (h : s.Indexed) (hno : ¬ s.targets.dag.Admits s.targets.certStore cert)
    {err : GoError} (heq : s.targets.dag.addCertificate s.targets.certStore cert =
      (.error err, s.targets.dag.ensureRound cert.round, s.targets.certStore)) :
    (s.step (.addCertificate cert)).1.Indexed := by
  have hstep : (s.step (.addCertificate cert)).1 =
      { gc := s.gc
        targets := { s.targets with dag := s.targets.dag.ensureRound cert.round } } := by
    simp only [step, heq, if_neg hno]
  rw [hstep]
  refine ⟨h.batches, h.certificates, fun b hb => ?_⟩
  have hkept := h.kept b hb
  refine hkept.congr rfl (fun a => Dag.slot_ensureRound _ _ _ a) hkept.ahead fun hr => ?_
  exact ⟨(Dag.rounds_ensureRound_eq_none.mp hr).2, fun c hc => hc⟩

theorem Indexed.raiseCommitted (h : s.Indexed) (round : UInt64) :
    (s.step (.raiseCommitted round)).1.Indexed := by
  by_cases hlt : s.gc.committedRound < round
  · have hstep : (s.step (.raiseCommitted round)).1 =
        { gc := { s.gc with committedRound := round }
          targets := { s.targets with dag := s.targets.dag.setCommittedRound round } } := by
      simp only [step, GCManager.raiseCommitted, if_pos hlt]
    rw [hstep]
    refine ⟨h.batches, h.certificates, fun b hb => ?_⟩
    have hkept := h.kept b hb
    refine hkept.congr rfl (fun a => Dag.slot_setCommittedRound _ _ _ a) hkept.ahead fun hr => ?_
    exact ⟨Dag.rounds_setCommittedRound_eq_none.mp hr, fun c hc => hc⟩
  · have hstep : (s.step (.raiseCommitted round)).1 = s := by
      simp only [step, GCManager.raiseCommitted, if_neg hlt]
    rw [hstep]
    exact h

variable [ListsCertificates CS]

theorem Indexed.admitted (h : s.Indexed) (hok : s.InPlace (.addCertificate cert))
    (hadm : s.targets.dag.Admits s.targets.certStore cert)
    (heq : s.targets.dag.addCertificate s.targets.certStore cert =
      ((CertificateStore.saveCertificate s.targets.certStore cert).1,
        (s.targets.dag.ensureRound cert.round).insertCertificate cert,
        (CertificateStore.saveCertificate s.targets.certStore cert).2)) :
    (s.step (.addCertificate cert)).1.Indexed := by
  have hstep : (s.step (.addCertificate cert)).1 =
      { gc := s.gc.markBatchesCommitted cert.batchDigests
        targets :=
          { s.targets with
            dag := (s.targets.dag.ensureRound cert.round).insertCertificate cert
            certStore := (CertificateStore.saveCertificate s.targets.certStore cert).2 } } := by
    simp only [step, heq, if_pos hadm]
  rw [hstep]
  refine ⟨h.batches, TalliesRounds.sound_save cert h.certificates, fun b hb => ?_⟩
  have hkept := h.kept b hb
  refine ⟨?_, hkept.ahead, fun hr c hc => ?_⟩
  · have hround : b.digest ∈ cert.batchDigests → b.round = cert.round := by
      intro hdigest
      obtain ⟨ref, href, hdigest⟩ := List.mem_map.mp hdigest
      refine hok hadm ref href b.round ?_
      rw [hdigest, storedRound, hb]
      rfl
    show (s.gc.uncommittedBatches.delAll cert.batchDigests).get b.digest = none ∧ _ ∨
      (s.gc.uncommittedBatches.delAll cert.batchDigests).get b.digest = some b.round ∧ _
    rw [GoMap.get_delAll, namedInMemory_insert hadm.free]
    by_cases hdigest : b.digest ∈ cert.batchDigests
    · rw [if_pos hdigest]
      exact .inl ⟨rfl, .inr ⟨hround hdigest, hdigest⟩⟩
    · rw [if_neg hdigest]
      simpa [hdigest] using hkept.indexed
  · obtain ⟨hne, hr⟩ := Dag.rounds_insertCertificate_eq_none.mp hr
    exact hkept.unlisted (Dag.rounds_ensureRound_eq_none.mp hr).2 c
      (ListsCertificates.listed_save h.certificates hne hc)

theorem Indexed.addCertificate (h : s.Indexed) (hok : s.InPlace (.addCertificate cert)) :
    (s.step (.addCertificate cert)).1.Indexed := by
  rcases Dag.addCertificate_cases s.targets.dag s.targets.certStore cert with
    ⟨err, heq, hwhy⟩ | ⟨hadm, heq⟩
  · exact h.refused (fun hadm => hadm.not_refused hwhy) heq
  · exact h.admitted hok hadm heq

theorem Indexed.performGC (h : s.Indexed) (orders : GCOrders) (recovery : TxRecovery TI κ)
    (g : UInt64) : (s.step (.performGC orders recovery g)).1.Indexed := by
  obtain ⟨hdag, hbatches⟩ := s.gc.performGC_dag s.targets orders recovery g
  have hcerts :
      TalliesRounds.sound (s.step (.performGC orders recovery g)).1.targets.certStore ∧
      ∀ r, ∀ c ∈ listedCertificates (s.step (.performGC orders recovery g)).1.targets.certStore r,
        c ∈ listedCertificates s.targets.certStore r := by
    rcases s.gc.performGC_certStore s.targets orders recovery g with hstore | hstore
    · simp only [step, hstore]
      exact ⟨h.certificates, fun r c hc => hc⟩
    · simp only [step, hstore]
      exact ⟨TalliesRounds.sound_delete g h.certificates,
        fun r c hc => ListsCertificates.listed_delete h.certificates hc⟩
  refine ⟨?_, hcerts.1, fun b hb => ?_⟩
  · simp only [step, hbatches]
    exact ListsBatches.sound_delete g h.batches
  · simp only [step, hbatches] at hb
    -- A batch that is left is of no round the collection went through.
    obtain ⟨hb, hle⟩ := ListsBatches.get_delete h.batches hb
    have hkept := h.kept b hb
    have hlt : ¬ b.round < g := UInt64.not_lt.mpr hle
    refine hkept.congr ?_ (fun a => ?_) ?_ fun hr => ⟨?_, hcerts.2 b.round⟩
    · refine GCManager.get_performGC (fun r hr => ?_) s.targets orders recovery
      rcases hkept.indexed with ⟨hnone, -⟩ | ⟨hsome, -⟩
      · exact absurd (hnone.symm.trans hr) (by simp)
      · rw [← Option.some.inj (hsome.symm.trans hr)]
        exact hle
    · simp only [step, hdag]
      rw [Dag.slot_pruneRoundsBefore, if_neg hlt]
    · exact GCManager.scanStart_performGC_le hkept.ahead hle s.targets orders recovery
    · simp only [step, hdag] at hr
      rwa [Dag.rounds_pruneRoundsBefore, if_neg hlt] at hr

theorem Indexed.step (h : s.Indexed) {ev : TrackingEvent TI κ} (hok : s.InPlace ev) :
    (s.step ev).1.Indexed := by
  cases ev with
  | saveBatch b => exact h.saveBatch hok
  | addCertificate cert => exact h.addCertificate hok
  | raiseCommitted round => exact h.raiseCommitted round
  | performGC orders recovery g => exact h.performGC orders recovery g

/-- In every run that keeps batches and certificates in place, both ways give the same
transactions whenever and below whatever round a collection asks. -/
theorem recoveries_agree {log : List Transaction}
    (h : Run.Reach Fresh step (fun s _ ev => s.InPlace ev) s log) (g : UInt64) : s.Agree g := by
  have hindexed : s.Indexed := Run.Reach.invariant (I := fun s _ => s.Indexed)
    (fun s hs => hs.indexed) (fun s log ev hs hok => hs.step hok) h
  exact hindexed.agree g

end

section

attribute [local instance] idealCrypto

abbrev MemoryTracking := Tracking MemoryBatchStore MemoryCertificateStore MemoryTxIndex Unit

def newTracking : MemoryTracking :=
  { gc := .new { gcDepth := 1, recoverUncommittedTxs := true }
    targets :=
      { dag := .new { maxHistoryDepth := 8, maxHistoryCacheSize := 2 }
        batchStore := .new, certStore := .new, txIndex := .new, sink := () } }

theorem fresh_newTracking : newTracking.Fresh where
  gc := ⟨_, rfl⟩
  dag := ⟨_, rfl⟩
  batches := MemoryBatchStore.sound_new
  empty digest b hb := by
    obtain ⟨-, hget⟩ := MemoryBatchStore.getBatch_eq_ok.mp hb
    exact absurd hget (by simp [newTracking, MemoryBatchStore.new, RankIndex.empty])
  certificates := MemoryCertificateStore.sound_new

def after (events : List (TrackingEvent MemoryTxIndex Unit)) : MemoryTracking :=
  (Run.exec step newTracking [] events).1

def certifiedBatch (round : UInt64) : Batch := .new 0 1 round [[1]] 0

def leftBatch : Batch := .new 0 2 0 [[2]] 0

def listedOrders : GCOrders := { certs := .listed, uncommitted := .listed }

/-- Two batches of the first round, and a certificate for one of them. -/
def certifiedAt (round : UInt64) : List (TrackingEvent MemoryTxIndex Unit) :=
  [.saveBatch (certifiedBatch 0), .saveBatch leftBatch,
    .addCertificate (votedCertificate 1 round [(certifiedBatch 0).getDigest] [])]

/-- The certificate is of the round of the batch. -/
theorem recoveries_agree_own_round :
    ((after (certifiedAt 0)).gc.extractUncommittedTxs (after (certifiedAt 0)).targets
      listedOrders 1).1 = [[2]] ∧ (after (certifiedAt 0)).Agree 1 := by
  have hok : Run.AllOk step (fun s _ ev => s.InPlace ev) newTracking [] (certifiedAt 0) := by
    decide +kernel
  exact ⟨by decide +kernel, recoveries_agree (Run.Reach.of_exec fresh_newTracking hok) 1⟩

def savedLate : List (TrackingEvent MemoryTxIndex Unit) :=
  [.performGC listedOrders none 3, .saveBatch (certifiedBatch 1)]

def savedAgain : List (TrackingEvent MemoryTxIndex Unit) :=
  [.saveBatch (certifiedBatch 0),
    .addCertificate (votedCertificate 1 0 [(certifiedBatch 0).getDigest] []),
    .saveBatch (certifiedBatch 0)]

/-- What the index and the scan give below a round, with every map gone through as listed. -/
def recoveries (events : List (TrackingEvent MemoryTxIndex Unit)) (g : UInt64) :
    List Transaction × List Transaction :=
  (((after events).gc.extractUncommittedTxs (after events).targets listedOrders g).1,
    ((after events).gc.extractUncommittedTxsFallback (after events).targets listedOrders g).1)

/-- With a certificate of the next round the scan gives both batches and the index the one that
is left. What is saved late, or again, the index gives and the scan does not. -/
theorem recoveries_differ :
    recoveries (certifiedAt 1) 1 = ([[2]], [[1], [2]]) ∧ ¬ (after (certifiedAt 1)).Agree 1 ∧
      recoveries savedLate 4 = ([[1]], []) ∧ ¬ (after savedLate).Agree 4 ∧
      recoveries savedAgain 1 = ([[1]], []) ∧ ¬ (after savedAgain).Agree 1 := by
  have hdiffer : ∀ {events g}, ¬ (recoveries events g).1.Perm (recoveries events g).2 →
      ¬ (after events).Agree g :=
    fun hperm hagree => hperm (hagree listedOrders listedOrders)
  refine ⟨by decide +kernel, hdiffer ?_, by decide +kernel, hdiffer ?_, by decide +kernel,
    hdiffer ?_⟩
  · decide +kernel
  · decide +kernel
  · decide +kernel

end

end Tracking

end DagMempool
