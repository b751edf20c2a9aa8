import DagMempool.Dag.Rounds
import DagMempool.Proofs.CertificateStores
import DagMempool.Proofs.CertificateWrites
import DagMempool.Proofs.NeededBatches

/-!
# What a collection deletes

A collection goes through four components, each with a loop of its own over an index of its own:
the DAG by its rounds, which it uses to find what to take out of the index by digest; the batch
store and the certificate store by the digests listed for each round, and the latter drops the
validators of these rounds with them. What is left is what was there of the rounds that are not
below the given one, in each of the seven maps, provided that certificates in the DAG with the
same digest are the same; and going through them again changes nothing.
-/

namespace DagMempool

/-! ## The DAG

A prune goes by the digests it finds in a round, the index by digest. That the two match is what
`Traced` is for. -/

namespace Dag

variable {d : Dag}

/-- What the index by digest has is in its slot. -/
def Traced (d : Dag) : Prop :=
  ∀ digest c, d.certIndex.get digest = some c →
    d.slot c.round c.author = some c ∧ c.digest = digest

theorem traced_new (cfg : DagConfig) : (new cfg).Traced := by
  intro digest c hc
  exact absurd hc (by simp [new])

theorem Traced.congr {d' : Dag} (h : d.Traced) (hslot : ∀ r a, d'.slot r a = d.slot r a)
    (hindex : d'.certIndex = d.certIndex) : d'.Traced := by
  intro digest c hc
  rw [hindex] at hc
  rw [hslot]
  exact h _ _ hc

theorem Traced.setCommittedRound (h : d.Traced) (round : UInt64) :
    (d.setCommittedRound round).Traced :=
  h.congr (slot_setCommittedRound d round) rfl

theorem Traced.addCertificate {CS : Type} [CertificateStore CS] (h : d.Traced) (certStore : CS)
    (cert : Certificate) : (d.addCertificate certStore cert).2.1.Traced := by
  have hensured : (d.ensureRound cert.round).Traced :=
    h.congr (slot_ensureRound d cert.round) (certIndex_ensureRound d cert.round)
  rcases d.addCertificate_cases certStore cert with ⟨err, heq, -⟩ | ⟨hadm, heq⟩
  · rw [heq]
    exact hensured
  · rw [heq]
    intro digest c hc
    rw [slot_insertCertificate]
    rcases GoMap.get_set_eq_some hc with ⟨rfl, rfl⟩ | ⟨-, hold⟩
    · exact ⟨if_pos ⟨rfl, rfl⟩, rfl⟩
    · obtain ⟨hslot, hdigest⟩ := hensured _ _ hold
      refine ⟨?_, hdigest⟩
      rw [if_neg]
      · exact hslot
      · rintro ⟨hround, hauthor⟩
        rw [hround, hauthor, slot_ensureRound, hadm.free] at hslot
        cases hslot

theorem Traced.round_le (h : d.Traced) {round : UInt64} {digest : Hash} {c : Certificate}
    (hc : (d.pruneRoundsBefore round).certIndex.get digest = some c) : round ≤ c.round := by
  obtain ⟨hold, hnone⟩ := certIndex_pruneRoundsBefore_iff.mp hc
  obtain ⟨hslot, hdigest⟩ := h _ _ hold
  exact UInt64.not_lt.mp fun hlt => hnone _ _ c hlt hslot hdigest

theorem Traced.pruneRoundsBefore (h : d.Traced) (round : UInt64) :
    (d.pruneRoundsBefore round).Traced := by
  intro digest c hc
  obtain ⟨hslot, hdigest⟩ := h _ _ (certIndex_pruneRoundsBefore hc)
  refine ⟨?_, hdigest⟩
  rw [slot_pruneRoundsBefore, if_neg (UInt64.not_lt.mpr (h.round_le hc))]
  exact hslot

/-- Where certificates of one digest are the same, the index loses those of the rounds that are
pruned, and no others. -/
theorem Traced.certIndex_pruneRoundsBefore (h : d.Traced) (hshaped : d.Shaped)
    (hdigests : ∀ c ∈ d.certificates, ∀ c' ∈ d.certificates, c.digest = c'.digest → c = c')
    {round : UInt64} {digest : Hash} {c : Certificate} :
    (d.pruneRoundsBefore round).certIndex.get digest = some c ↔
      d.certIndex.get digest = some c ∧ round ≤ c.round := by
  refine ⟨fun hc => ⟨Dag.certIndex_pruneRoundsBefore hc, h.round_le hc⟩, fun ⟨hc, hle⟩ => ?_⟩
  refine certIndex_pruneRoundsBefore_iff.mpr ⟨hc, fun r a c' hlt hslot' hdigest' => ?_⟩
  obtain ⟨hslot, hdigest⟩ := h _ _ hc
  obtain rfl := hdigests c (mem_certificates.mpr ⟨_, _, hslot⟩) c'
    (mem_certificates.mpr ⟨_, _, hslot'⟩) (hdigest.trans hdigest'.symm)
  rw [← (hshaped r a c hslot').1] at hlt
  exact absurd hle (UInt64.not_le.mpr hlt)

theorem pruneRoundsBefore_again (d : Dag) (round : UInt64) :
    (d.pruneRoundsBefore round).pruneRoundsBefore round = d.pruneRoundsBefore round := by
  have hkept : ∀ {r rd}, (d.pruneRoundsBefore round).rounds.get r = some rd → ¬ r < round := by
    intro r rd hrd hlt
    rw [rounds_pruneRoundsBefore, if_pos hlt] at hrd
    cases hrd
  have hrounds : (d.pruneRoundsBefore round).rounds.filter (fun r _ => !decide (r < round)) =
      (d.pruneRoundsBefore round).rounds :=
    GoMap.filter_eq_self fun hrd => by simp [hkept hrd]
  have hnone : ((d.pruneRoundsBefore round).rounds.filter
      fun r _ => decide (r < round)).values = [] :=
    GoMap.values_filter_eq_nil fun hrd => by simp [hkept hrd]
  generalize hpruned : d.pruneRoundsBefore round = pruned at hrounds hnone ⊢
  unfold Dag.pruneRoundsBefore
  rw [hrounds, hnone, ← hpruned]
  rfl

end Dag

/-! ## The stores

A store deletes by its lists of digests. What is not listed stays, which `Aligned` excludes. -/

namespace MemoryBatchStore

variable {s : MemoryBatchStore}

theorem deleteBatchesBefore_of_ok {g : UInt64} (h : (s.deleteBatchesBefore g).1 = .ok ()) :
    (s.deleteBatchesBefore g).2 = { s with index := s.index.drop fun r => decide (r < g) } := by
  unfold deleteBatchesBefore at h ⊢
  split at h
  · cases h
  · next hopen => rw [if_neg hopen]

theorem deleteBatchesBefore_again (s : MemoryBatchStore) (g : UInt64) :
    ((s.deleteBatchesBefore g).2.deleteBatchesBefore g).2 = (s.deleteBatchesBefore g).2 := by
  cases hclosed : s.closed with
  | true => rw [deleteBatchesBefore_closed hclosed, deleteBatchesBefore_closed hclosed]
  | false => simp [deleteBatchesBefore, hclosed, RankIndex.drop_drop]

end MemoryBatchStore

namespace MemoryCertificateStore

variable {s : MemoryCertificateStore}

/-- Rounds with validators are listed. -/
def Aligned (s : MemoryCertificateStore) : Prop :=
  ∀ r, s.byValidator.has r = true → s.index.byRank.has r = true

theorem aligned_new : new.Aligned := by
  intro r hr
  exact absurd hr (by simp [new, GoMap.has])

theorem Aligned.saveCertificate (h : s.Aligned) (c : Certificate) :
    (s.saveCertificate c).2.Aligned := by
  unfold MemoryCertificateStore.saveCertificate
  split
  · exact h
  · split
    · intro r hr
      exact GoMap.has_set.mpr ((GoMap.has_set.mp hr).imp_right (h r))
    · exact h

theorem mem_doomed {g r : UInt64} :
    r ∈ s.index.byRank.keys.filter (fun r => decide (r < g)) ↔
      s.index.byRank.has r = true ∧ r < g := by
  rw [List.mem_filter, GoMap.mem_keys, decide_eq_true_eq]

theorem Aligned.deleteCertificatesBefore (h : s.Aligned) (g : UInt64) :
    (s.deleteCertificatesBefore g).2.Aligned := by
  unfold MemoryCertificateStore.deleteCertificatesBefore
  split
  · exact h
  · intro r hr
    obtain ⟨ds, hds⟩ := GoMap.has_iff.mp hr
    obtain ⟨hkept, hold⟩ := GoMap.get_delAll_eq_some.mp hds
    have hlisted := h r (GoMap.has_iff.mpr ⟨ds, hold⟩)
    have hge : ¬ r < g := fun hlt => hkept (mem_doomed.mpr ⟨hlisted, hlt⟩)
    obtain ⟨ks, hks⟩ := GoMap.has_iff.mp hlisted
    refine GoMap.has_iff.mpr ⟨ks, ?_⟩
    rw [RankIndex.byRank_drop, if_neg (by simpa using hge)]
    exact hks

/-- What calls can make of an empty store. -/
def Used (s : MemoryCertificateStore) : Prop :=
  ∃ answers, Run.Reach (· = new) CertificateCall.run (fun _ _ _ => True) s answers

theorem Aligned.run (h : s.Aligned) (call : CertificateCall) : (call.run s).1.Aligned := by
  cases call with
  | save c => exact h.saveCertificate c
  | deleteBefore r => exact h.deleteCertificatesBefore r
  | _ => exact h

theorem Used.aligned (h : s.Used) : s.Aligned := by
  obtain ⟨answers, hreach⟩ := h
  refine Run.Reach.invariant (I := fun (s : MemoryCertificateStore) _ => s.Aligned) ?_
    (fun _ _ _ h _ => h.run _) hreach
  rintro _ rfl
  exact aligned_new

theorem deleteCertificatesBefore_of_ok {g : UInt64}
    (h : (s.deleteCertificatesBefore g).1 = .ok ()) :
    (s.deleteCertificatesBefore g).2 = { s with
      index := s.index.drop fun r => decide (r < g)
      byValidator := s.byValidator.delAll
        (s.index.byRank.keys.filter fun r => decide (r < g)) } := by
  unfold deleteCertificatesBefore at h ⊢
  split at h
  · cases h
  · next hopen => rw [if_neg hopen]

theorem Aligned.byValidator_delete (h : s.Aligned) (g r : UInt64) :
    (s.byValidator.delAll (s.index.byRank.keys.filter fun r => decide (r < g))).get r =
      if r < g then none else s.byValidator.get r := by
  rw [GoMap.get_delAll]
  by_cases hlt : r < g
  · rw [if_pos hlt]
    split
    · rfl
    · next hnot =>
        -- A round that is not listed has no validators.
        by_contra hsome
        obtain ⟨ds, hds⟩ := Option.ne_none_iff_exists'.mp hsome
        exact hnot (mem_doomed.mpr ⟨h r (GoMap.has_iff.mpr ⟨ds, hds⟩), hlt⟩)
  · rw [if_neg hlt, if_neg fun hmem => hlt (mem_doomed.mp hmem).2]

theorem deleteCertificatesBefore_again (s : MemoryCertificateStore) (g : UInt64) :
    ((s.deleteCertificatesBefore g).2.deleteCertificatesBefore g).2 =
      (s.deleteCertificatesBefore g).2 := by
  cases hclosed : s.closed with
  | true => simp [deleteCertificatesBefore, hclosed]
  | false =>
    have hnone : (s.index.drop fun r => decide (r < g)).byRank.keys.filter
        (fun r => decide (r < g)) = [] := by
      refine List.filter_eq_nil_iff.mpr fun r hr => ?_
      obtain ⟨ks, hks⟩ := GoMap.has_iff.mp (GoMap.mem_keys.mp hr)
      rw [RankIndex.byRank_drop] at hks
      split at hks
      · cases hks
      · next hge => exact hge
    simp only [deleteCertificatesBefore, hclosed, Bool.false_eq_true, if_false, hnone,
      RankIndex.drop_drop]
    rfl

end MemoryCertificateStore

/-- What is left of the seven maps. -/
structure KeptFrom {TI κ : Type} (g : UInt64)
    (t t' : GCTargets MemoryBatchStore MemoryCertificateStore TI κ) : Prop where
  rounds : ∀ r, t'.dag.rounds.get r = if r < g then none else t.dag.rounds.get r
  certIndex : ∀ digest c, t'.dag.certIndex.get digest = some c ↔
    t.dag.certIndex.get digest = some c ∧ g ≤ c.round
  certs : ∀ digest c, t'.certStore.index.items.get digest = some c ↔
    t.certStore.index.items.get digest = some c ∧ g ≤ c.round
  certRounds : ∀ r, t'.certStore.index.byRank.get r =
    if r < g then none else t.certStore.index.byRank.get r
  certValidators : ∀ r, t'.certStore.byValidator.get r =
    if r < g then none else t.certStore.byValidator.get r
  batches : ∀ digest b, t'.batchStore.index.items.get digest = some b ↔
    t.batchStore.index.items.get digest = some b ∧ g ≤ b.round
  batchRounds : ∀ r, t'.batchStore.index.byRank.get r =
    if r < g then none else t.batchStore.index.byRank.get r

namespace GCManager

variable {TI κ : Type} [TxIndex TI] {gc : GCManager} {orders : GCOrders}
variable {t : GCTargets MemoryBatchStore MemoryCertificateStore TI κ} {recovery : TxRecovery TI κ}

theorem keptFrom_performGC {g : UInt64} (htraced : t.dag.Traced) (hshaped : t.dag.Shaped)
    (haligned : t.certStore.Aligned)
    (hdigests : ∀ c ∈ t.dag.certificates, ∀ c' ∈ t.dag.certificates,
      c.digest = c'.digest → c = c')
    (hok : gc.performGCResult t orders recovery g = .ok ()) :
    KeptFrom g t (gc.performGC t orders recovery g).2.2 := by
  obtain ⟨hbatchok, hcertok, hcerts⟩ := performGC_of_ok hok
  obtain ⟨hdag, hbatches⟩ := gc.performGC_dag t orders recovery g
  have hbatches := hbatches.trans (MemoryBatchStore.deleteBatchesBefore_of_ok hbatchok)
  have hcerts := hcerts.trans (MemoryCertificateStore.deleteCertificatesBefore_of_ok hcertok)
  constructor
  · intro r
    rw [hdag]
    exact t.dag.rounds_pruneRoundsBefore g r
  · intro digest c
    rw [hdag]
    exact htraced.certIndex_pruneRoundsBefore hshaped hdigests
  · intro digest c
    rw [hcerts]
    rw [RankIndex.get_drop, decide_eq_false_iff_not, UInt64.not_lt]
  · intro r
    rw [hcerts]
    rw [RankIndex.byRank_drop]
    simp only [decide_eq_true_eq]
  · intro r
    rw [hcerts]
    exact haligned.byValidator_delete g r
  · intro digest b
    rw [hbatches]
    rw [RankIndex.get_drop, decide_eq_false_iff_not, UInt64.not_lt]
  · intro r
    rw [hbatches]
    rw [RankIndex.byRank_drop]
    simp only [decide_eq_true_eq]

theorem performGC_again {g : UInt64} (hok : gc.performGCResult t orders recovery g = .ok ())
    (gc' : GCManager) (orders' : GCOrders) (recovery' : TxRecovery TI κ) :
    let t' := (gc.performGC t orders recovery g).2.2
    let t'' := (gc'.performGC t' orders' recovery' g).2.2
    t''.dag = t'.dag ∧ t''.certStore = t'.certStore ∧ t''.batchStore = t'.batchStore := by
  intro t' t''
  obtain ⟨-, -, hcerts⟩ := performGC_of_ok hok
  obtain ⟨hdag, hbatches⟩ := gc.performGC_dag t orders recovery g
  obtain ⟨hdag', hbatches'⟩ := gc'.performGC_dag t' orders' recovery' g
  refine ⟨?_, ?_, ?_⟩
  · rw [hdag', hdag]
    exact t.dag.pruneRoundsBefore_again g
  · rcases gc'.performGC_certStore t' orders' recovery' g with hsame | hdelete
    · exact hsame
    · rw [hdelete, hcerts]
      exact t.certStore.deleteCertificatesBefore_again g
  · rw [hbatches', hbatches]
    exact t.batchStore.deleteBatchesBefore_again g

end GCManager

namespace Looseberry

variable [Crypto] [SliceSort] {TI : Type} [TxIndex TI]
variable {l : Looseberry MemoryBatchStore MemoryCertificateStore TI}

theorem traced_of_reach
    {init : Looseberry MemoryBatchStore MemoryCertificateStore TI → Prop}
    {ok : Looseberry MemoryBatchStore MemoryCertificateStore TI → List Output →
      Event × Env → Prop} {log : List Output} (h : Reach init ok l log) : l.dag.Traced := by
  refine Run.Reach.invariant (I := fun (l : Looseberry _ _ TI) _ => l.dag.Traced) ?_ ?_ h
  · rintro _ ⟨⟨cfg, vs, batchStore, certStore, txIndex, now, rfl⟩, -⟩
    exact Dag.traced_new _
  · intro l log ev hl _
    exact step_dag_invariant (I := Dag.Traced)
      (fun _ certStore c hd => hd.addCertificate certStore c)
      (fun _ round hd => hd.setCommittedRound round)
      (fun _ round hd => hd.pruneRoundsBefore round) hl ev

theorem aligned_of_reach
    {ok : Looseberry MemoryBatchStore MemoryCertificateStore TI → List Output →
      Event × Env → Prop} {log : List Output}
    (h : Reach (fun l => l.certStore.Used) ok l log) : l.certStore.Aligned :=
  certStore_of_reach (I := MemoryCertificateStore.Aligned) (fun _ c hs => hs.saveCertificate c)
    (fun _ round hs => hs.deleteCertificatesBefore round) (fun _ h0 => h0.aligned) h

/-- In every state of every run of a node over stores in memory, a collection that succeeds
leaves of the DAG, its index and the two stores exactly what is not below its round, and a second
one changes none of them. -/
theorem gc_keeps_exactly {log : List Output}
    (h : Reach (fun l => l.certStore.Used) (fun _ _ _ => True) l log)
    (hdigests : ∀ c ∈ l.dag.certificates, ∀ c' ∈ l.dag.certificates,
      c.digest = c'.digest → c = c')
    (orders : GCOrders) (recovery : TxRecovery TI Pool) (g : UInt64)
    (hok : l.gc.performGCResult l.gcTargets orders recovery g = .ok ()) :
    let done := l.gc.performGC l.gcTargets orders recovery g
    KeptFrom g l.gcTargets done.2.2 ∧
      ∀ (orders' : GCOrders) (recovery' : TxRecovery TI Pool),
        let again := done.2.1.performGC done.2.2 orders' recovery' g
        again.2.2.dag = done.2.2.dag ∧ again.2.2.certStore = done.2.2.certStore ∧
          again.2.2.batchStore = done.2.2.batchStore := by
  refine ⟨GCManager.keptFrom_performGC (traced_of_reach h) (shaped_of_reach h)
    (aligned_of_reach h) hdigests hok, fun orders' recovery' => ?_⟩
  exact GCManager.performGC_again hok _ orders' recovery'

end Looseberry

section

open IdealScheme

def stampedRounds : List Event :=
  [.batchMessage (stampedBatch 0) 1, .batchMessage (stampedBatch 1) 1] ++
    (votedRound 0 ++ votedRound 1).map .certificateMessage

/-- Of the two rounds, a collection for the second leaves the second. -/
theorem gc_keeps_exactly_two_rounds :
    let l := (idealExec 0 10 stampedRounds).1
    let done := l.gc.performGC l.gcTargets (idealEnv 9).gc l.txRecovery 1
    (l.dag.certificates.length = 6 ∧ l.batchStore.index.items.len = 2) ∧
      KeptFrom 1 l.gcTargets done.2.2 ∧
      (done.2.2.dag.certificates.length = 3 ∧ done.2.2.batchStore.index.items.len = 1) ∧
      (done.2.1.performGC done.2.2 (idealEnv 10).gc none 1).2.2.dag = done.2.2.dag := by
  have hreach : Looseberry.Reach (fun l => l.certStore.Used) (fun _ _ _ => True)
      (idealExec 0 10 stampedRounds).1 (idealExec 0 10 stampedRounds).2 :=
    reach_idealExec 0 10 stampedRounds ⟨[], .start rfl⟩ (.of_forall (fun _ _ _ => trivial) _ _ _)
  have hkept := Looseberry.gc_keeps_exactly hreach (by decide +kernel) (idealEnv 9).gc
    (Looseberry.txRecovery (idealExec 0 10 stampedRounds).1) 1 (by decide +kernel)
  refine ⟨by decide +kernel, hkept.1, by decide +kernel, (hkept.2 (idealEnv 10).gc none).1⟩

end

end DagMempool
