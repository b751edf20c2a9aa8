import DagMempool.Proofs.NodeFrame

/-!
# What certificates write

A certificate that arrives, that waited among the orphans, or that the node forms
itself reaches three components beside the primary: the certificate store, the
DAG, and the flow controller's current round. `Written` is a sequence of such
writes, for certificates with some property, and `step_written` says that every
event which is not a collection is one. What the DAG and its store are like after
any run then takes one lemma about a write and one about a collection.

Which certificates an event can bring is said through their headers: `Known Q`
holds if the headers the node tracks and the orphans it keeps have property `Q`,
and `Brings Q` if what the event adds to them has it.
-/

namespace DagMempool

/-! ## The DAG under writes

The rounds, the index and the marks of a DAG before and after a certificate is added. -/

variable {r : UInt64} {c : Certificate}

namespace Dag

/-- Certificates are held under their own round and author. -/
def Shaped (d : Dag) : Prop :=
  ∀ r a c, d.slot r a = some c → c.round = r ∧ c.author = a

theorem shaped_new (cfg : DagConfig) : (new cfg).Shaped := by
  intro r a c hc
  cases hc

variable {d : Dag}

theorem Shaped.authors (h : d.Shaped) {rd : RoundData} (hr : d.rounds.get r = some rd) :
    (rd.certificates.values.map (·.author)).Nodup := by
  have hkeys : rd.certificates.values.map (·.author) = rd.certificates.keys :=
    GoMap.map_values_eq_keys fun a c hc => (h r a c (by rw [slot, hr]; exact hc)).2
  rw [hkeys]
  exact rd.certificates.nodup_keys

theorem Shaped.mem_values (h : d.Shaped) {rd : RoundData} (hr : d.rounds.get r = some rd) :
    c ∈ rd.certificates.values ↔ c ∈ d.certificates ∧ c.round = r := by
  rw [GoMap.mem_values, mem_certificates]
  constructor
  · rintro ⟨a, ha⟩
    have hslot : d.slot r a = some c := by rw [slot, hr]; exact ha
    exact ⟨⟨r, a, hslot⟩, (h r a c hslot).1⟩
  · rintro ⟨⟨r', a, hslot⟩, rfl⟩
    obtain rfl := (h r' a c hslot).1
    rw [slot, hr] at hslot
    exact ⟨a, hslot⟩

theorem Shaped.addCertificate {CS : Type} [CertificateStore CS] (h : d.Shaped) (certStore : CS)
    (cert : Certificate) : (d.addCertificate certStore cert).2.1.Shaped := by
  intro r a c hc
  rcases slot_addCertificate hc with hold | ⟨rfl, rfl, rfl, -⟩
  · exact h r a c hold
  · exact ⟨rfl, rfl⟩

theorem Shaped.setCommittedRound (h : d.Shaped) (round : UInt64) :
    (d.setCommittedRound round).Shaped := by
  intro r a c hc
  rw [slot_setCommittedRound] at hc
  exact h r a c hc

theorem Shaped.pruneRoundsBefore (h : d.Shaped) (round : UInt64) :
    (d.pruneRoundsBefore round).Shaped := by
  intro r a c hc
  rw [slot_pruneRoundsBefore] at hc
  split at hc
  · cases hc
  · exact h r a c hc

theorem ensureRound_marks (d : Dag) (round : UInt64) :
    (d.ensureRound round).committedRound = d.committedRound ∧
      (d.ensureRound round).hasCommitted = d.hasCommitted ∧
      (d.ensureRound round).highestRound = d.highestRound := by
  unfold ensureRound
  split
  · exact ⟨rfl, rfl, rfl⟩
  · exact ⟨rfl, rfl, rfl⟩

theorem addCertificate_marks {CS : Type} [CertificateStore CS] (d : Dag) (certStore : CS)
    (cert : Certificate) :
    (d.addCertificate certStore cert).2.1.committedRound = d.committedRound ∧
      (d.addCertificate certStore cert).2.1.hasCommitted = d.hasCommitted := by
  obtain ⟨hround, hcommitted, -⟩ := d.ensureRound_marks cert.round
  rcases d.addCertificate_cases certStore cert with ⟨err, heq, -⟩ | ⟨-, heq⟩
  · rw [heq]
    exact ⟨hround, hcommitted⟩
  · rw [heq]
    exact ⟨hround, hcommitted⟩

/-- The same certificates, in the same places. -/
structure Same (d d' : Dag) : Prop where
  slot : ∀ r a, d'.slot r a = d.slot r a
  certIndex : d'.certIndex = d.certIndex
  highestRound : d'.highestRound = d.highestRound

theorem Same.refl (d : Dag) : d.Same d := ⟨fun _ _ => rfl, rfl, rfl⟩

theorem same_ensureRound (d : Dag) (round : UInt64) : d.Same (d.ensureRound round) :=
  ⟨slot_ensureRound d round, certIndex_ensureRound d round, (ensureRound_marks d round).2.2⟩

section

variable {d d' d'' : Dag}

theorem Same.trans (h : d.Same d') (h' : d'.Same d'') : d.Same d'' :=
  ⟨fun r a => (h'.slot r a).trans (h.slot r a), h'.certIndex.trans h.certIndex,
    h'.highestRound.trans h.highestRound⟩

theorem Same.hasCertificate {CS : Type} [CertificateStore CS] (h : d.Same d') (certStore : CS)
    (digest : Hash) : d'.hasCertificate certStore digest = d.hasCertificate certStore digest :=
  hasCertificate_of_certIndex_eq h.certIndex certStore digest

theorem Same.admits {CS : Type} [CertificateStore CS] (h : d.Same d') {certStore : CS}
    {cert : Certificate} : d'.Admits certStore cert ↔ d.Admits certStore cert := by
  constructor
  · intro hadm
    refine ⟨(h.slot _ _).symm.trans hadm.free, fun hpos ref href => ?_⟩
    rw [← h.hasCertificate]
    exact hadm.parents hpos ref href
  · intro hadm
    refine ⟨(h.slot _ _).trans hadm.free, fun hpos ref href => ?_⟩
    rw [h.hasCertificate]
    exact hadm.parents hpos ref href

theorem addCertificate_of_accepts {CS : Type} [CertificateStore CS]
    [AcceptingCertificateStore CS] (d : Dag) {certStore : CS}
    (haccepts : AcceptingCertificateStore.accepts certStore) (cert : Certificate) :
    (¬ d.Admits certStore cert ∧
      ∃ err, d.addCertificate certStore cert =
        (.error err, d.ensureRound cert.round, certStore)) ∨
    (d.Admits certStore cert ∧
      d.addCertificate certStore cert =
        (.ok (), (d.ensureRound cert.round).insertCertificate cert,
          (CertificateStore.saveCertificate certStore cert).2)) := by
  rcases d.addCertificate_cases certStore cert with ⟨err, heq, hwhy⟩ | ⟨hadm, heq⟩
  · exact .inl ⟨fun hadm => hadm.not_refused hwhy, err, heq⟩
  · rw [AcceptingCertificateStore.save_ok cert haccepts] at heq
    exact .inr ⟨hadm, heq⟩

end

end Dag

theorem FlowController.checkFlowControl_rounds (fc : FlowController) :
    fc.checkFlowControl.committedRound = fc.committedRound := by
  unfold checkFlowControl
  split
  · split <;> rfl
  · split <;> rfl

/-- What certificates reach beside the primary. -/
structure CertState (CS : Type) where
  dag : Dag
  certStore : CS
  flow : FlowController

inductive Written {CS : Type} [CertificateStore CS] (P : Certificate → Prop) :
    CertState CS → CertState CS → Prop
  | refl (s : CertState CS) : Written P s s
  | save {s s' : CertState CS} (h : Written P s s') {c : Certificate} (hc : P c) :
      Written P s
        { s' with certStore := (CertificateStore.saveCertificate s'.certStore c).2 }
  | add {s s' : CertState CS} (h : Written P s s') {c : Certificate} (hc : P c) :
      Written P s
        { s' with
          dag := (s'.dag.addCertificate s'.certStore c).2.1
          certStore := (s'.dag.addCertificate s'.certStore c).2.2 }
  | round {s s' : CertState CS} (h : Written P s s') (round : UInt64) :
      Written P s { s' with flow := s'.flow.updateCurrentRound round }

namespace Written

variable {CS : Type} [CertificateStore CS] {P : Certificate → Prop} {s s' s'' : CertState CS}

theorem trans (h : Written P s s') (h' : Written P s' s'') : Written P s s'' := by
  induction h' with
  | refl => exact h
  | save _ hc ih => exact .save ih hc
  | add _ hc ih => exact .add ih hc
  | round _ r ih => exact .round ih r

/-- What adding a certificate keeps of a DAG is kept. -/
theorem dag_invariant {I : Dag → Prop}
    (hadd : ∀ (d : Dag) (certStore : CS) (c : Certificate), P c → I d →
      I (d.addCertificate certStore c).2.1)
    (h : Written P s s') (hs : I s.dag) : I s'.dag := by
  induction h with
  | refl => exact hs
  | save _ _ ih => exact ih
  | add _ hc ih => exact hadd _ _ _ hc ih
  | round _ _ ih => exact ih

/-- What saving a certificate keeps of a store is kept. -/
theorem certStore_invariant {I : CS → Prop}
    (hsave : ∀ (certStore : CS) (c : Certificate), P c → I certStore →
      I (CertificateStore.saveCertificate certStore c).2)
    (h : Written P s s') (hs : I s.certStore) : I s'.certStore := by
  induction h with
  | refl => exact hs
  | save _ hc ih => exact hsave _ _ hc ih
  | @add s' _ c hc ih =>
    rcases s'.dag.addCertificate_cases s'.certStore c with ⟨err, heq, -⟩ | ⟨-, heq⟩
    · rw [heq]
      exact ih
    · rw [heq]
      exact hsave _ c hc ih
  | round _ _ ih => exact ih

theorem marks (h : Written P s s') :
    s'.dag.committedRound = s.dag.committedRound ∧
      s'.dag.hasCommitted = s.dag.hasCommitted ∧
      s'.flow.committedRound = s.flow.committedRound := by
  induction h with
  | refl => exact ⟨rfl, rfl, rfl⟩
  | save _ _ ih => exact ih
  | @add s' _ c _ ih =>
    obtain ⟨hround, hcommitted⟩ := s'.dag.addCertificate_marks s'.certStore c
    exact ⟨hround.trans ih.1, hcommitted.trans ih.2.1, ih.2.2⟩
  | round _ _ ih =>
    exact ⟨ih.1, ih.2.1, (FlowController.checkFlowControl_rounds _).trans ih.2.2⟩

/-- What is in the DAG was there before, or has the property and is where it belongs. -/
theorem slot (h : Written P s s') {a : UInt16} (hc : s'.dag.slot r a = some c) :
    s.dag.slot r a = some c ∨ P c ∧ c.round = r ∧ c.author = a := by
  revert hc
  refine h.dag_invariant (I := fun d => d.slot r a = some c →
    s.dag.slot r a = some c ∨ P c ∧ c.round = r ∧ c.author = a) ?_ .inl
  intro d certStore c' hP ih hc
  rcases Dag.slot_addCertificate hc with hold | ⟨rfl, rfl, rfl, -⟩
  · exact ih hold
  · exact .inr ⟨hP, rfl, rfl⟩

theorem stored [LawfulCertificateStore CS] (h : Written P s s') {d : Hash}
    (hc : CertificateStore.getCertificate s'.certStore d = .ok c) :
    CertificateStore.getCertificate s.certStore d = .ok c ∨ P c := by
  revert hc
  refine h.certStore_invariant (I := fun certStore =>
    CertificateStore.getCertificate certStore d = .ok c →
      CertificateStore.getCertificate s.certStore d = .ok c ∨ P c) ?_ .inl
  intro certStore c' hP ih hc
  rcases LawfulCertificateStore.getCertificate_save hc with hold | rfl
  · exact ih hold
  · exact .inr hP

end Written

/-! ## Certificates the node forms

A certificate the node forms is of a header it tracks. Each operation of the primary keeps the
property of those headers, with the writes its callback makes. -/

section

open Looseberry

variable [Crypto] {CS : Type} [CertificateStore CS]

def Looseberry.Formed.certState (k : Formed) (certStore : CS) : CertState CS :=
  { dag := k.dag, certStore, flow := k.flow }

/-- While the primary works, the headers it tracks have the property, and so has what
was formed from them. -/
structure Formed.Tracked (Q : Header → Prop) (s : CertState CS) (p : Primary)
    (certStore : CS) (k : Formed) : Prop where
  tracked : ∀ d ph, p.voteTracker.pending.get d = some ph → Q ph.header
  written : Written (fun c => Q c.header) s (k.certState certStore)

variable [SliceSort] {Q : Header → Prop} {s : CertState CS} {certStore : CS}
variable {k : Formed} {p : Primary}

theorem recordVote_tracked (h : Formed.Tracked Q s p certStore k) (vote : Vote)
    (order : IterOrder Vote) (now : Int) :
    Primary.Leaves (Formed.Tracked Q s)
      (p.recordVote certStore onCertificateFormed k vote order now).2 := by
  obtain ⟨vt, hvt, hcases⟩ :=
    p.recordVote_cases certStore onCertificateFormed k vote order now
  have htracked := hvt.forall_pending (T := fun _ ph => Q ph.header)
    (fun _ hph => hph) h.tracked
  rcases hcases with heq | ⟨ph, hph, -, heq⟩
  · rw [heq]
    exact ⟨htracked, h.written⟩
  · rw [heq]
    have hcert : Q (VoteTracker.formCertificate ph p.validatorSet.quorum order).header :=
      htracked _ ph hph
    refine ⟨fun d ph' hph' => htracked d ph' (VoteTracker.get_removeHeader hph'), ?_⟩
    exact ((h.written.save hcert).add hcert).round _

theorem keeps_tracked (order : IterOrder Vote) (now : Int) (digest : Hash) :
    Primary.Keeps (Formed.Tracked Q s) (fun _ => True)
      (onCertificateFormed : CertSink Formed CS) order now digest where
  record hI _ := recordVote_tracked hI _ order now
  round _ hI := ⟨hI.tracked, hI.written⟩
  buffered _ _ _ _ := trivial
  unbuffer hI := ⟨hI.tracked, hI.written⟩

theorem handleVote_tracked (h : Formed.Tracked Q s p certStore k) (vote : Vote)
    (order : IterOrder Vote) (now : Int) :
    Primary.Leaves (Formed.Tracked Q s)
      (p.handleVote certStore onCertificateFormed k vote order now).2 :=
  Primary.handleVote_leaves h fun _ =>
    ⟨⟨h.tracked, h.written⟩, recordVote_tracked h vote order now⟩

/-- The header a tick of the header loop makes, if it makes one: from the digests that
are ready, in the round the primary is in. -/
def Primary.nextHeader (p : Primary) (certStore : CS) (hasAckQuorum : Hash → Bool)
    (now : Int) : Option Header :=
  let split := splitReady hasAckQuorum p.cfg.maxBatchesPerHeader [] p.batchDigests
  { p with batchDigests := split.2 }.buildHeader certStore split.1 now

theorem tryCreateHeader_tracked (h : Formed.Tracked Q s p certStore k) {hasAckQuorum : Hash → Bool}
    {now : Int} (hQ : ∀ header ∈ p.nextHeader certStore hasAckQuorum now, Q header)
    (order : IterOrder Vote) :
    Primary.Leaves (Formed.Tracked Q s)
      (p.tryCreateHeader certStore onCertificateFormed k hasAckQuorum order now).2 := by
  refine Primary.tryCreateHeader_survives (J := fun _ => Formed.Tracked Q s)
    (V := fun _ _ => True) hasAckQuorum (fun _ => ⟨h.tracked, h.written⟩) ?_
    (fun header => (keeps_tracked order now header.digest).survives) (fun _ _ _ _ hJ => hJ)
  intro rest digests header hsplit hb
  refine ⟨⟨fun d ph hph => ?_, h.written⟩, fun _ _ => trivial⟩
  rcases VoteTracker.get_trackHeader hph with hold | ⟨-, rfl⟩
  · exact h.tracked d ph hold
  · refine hQ header ?_
    rw [Primary.nextHeader, hsplit]
    exact hb

end

/-! ## Certificates from peers

A certificate that arrives is written if it verifies, and its arrival can have others written that
waited for it. -/

namespace Looseberry

variable [Crypto] {BS CS TI : Type}

def certState (l : Looseberry BS CS TI) : CertState CS :=
  { dag := l.dag, certStore := l.certStore, flow := l.flow }

structure Known (Q : Header → Prop) (l : Looseberry BS CS TI) : Prop where
  tracked : ∀ d ph, l.primary.voteTracker.pending.get d = some ph → Q ph.header
  orphans : ∀ c ∈ l.orphanCerts.values, Q c.header

variable {acc : Looseberry BS CS TI × Nat}

section

variable [CertificateStore CS] {Q : Header → Prop} {s : CertState CS}

/-- What the replay of orphans keeps. -/
structure Replayed (Q : Header → Prop) (s : CertState CS) (l : Looseberry BS CS TI) :
    Prop where
  orphans : ∀ c ∈ l.orphanCerts.values, Q c.header
  written : Written (fun c => Q c.header) s l.certState

variable {cert : Certificate} {l : Looseberry BS CS TI}

theorem replayOne_replayed (h : Replayed Q s acc.1) (hcert : Q cert.header) :
    Replayed Q s (replayOne acc cert).1 := by
  unfold replayOne
  dsimp only
  split
  · exact ⟨h.orphans, h.written.add hcert⟩
  · exact ⟨fun c hc => h.orphans c (GoMap.mem_values_of_del hc), h.written.add hcert⟩

theorem settleOrphans_replayed (h : Replayed Q s l) (hcert : Q cert.header) (env : Env)
    (answer : Except GoError Unit) : Replayed Q s (l.settleOrphans env cert answer) := by
  unfold settleOrphans
  split
  · rcases l.bufferOrphanCert_cases cert with heq | ⟨-, heq⟩
    · rw [heq]
      exact h
    · rw [heq]
      refine ⟨fun c hc => ?_, h.written⟩
      rcases GoMap.mem_values_of_set hc with rfl | hold
      · exact hcert
      · exact h.orphans c hold
  · exact h
  · refine ReplayRule.keeps (Q := fun _ c => Q c.header) ?_ _ _ h
    exact ⟨fun _ _ hacc hc => replayOne_replayed hacc hc, fun _ _ _ _ _ hc' => hc',
      fun _ c hl hmem => hl.orphans c hmem⟩

theorem handleCertificateMessage_replayed (h : Replayed Q s l) (hcert : Q cert.header) (env : Env) :
    Replayed Q s (l.handleCertificateMessage env cert) := by
  obtain ⟨-, hstore⟩ := l.primary.handleCertificate_eq l.certStore cert
  have hadmitted : Replayed Q s (l.admitCertificate cert).2 := by
    refine ⟨h.orphans, ?_⟩
    unfold admitCertificate
    dsimp only
    rcases hstore with hsame | hsaved
    · rw [hsame]
      exact h.written.add hcert
    · rw [hsaved]
      exact (h.written.save hcert).add hcert
  have hsettled := settleOrphans_replayed hadmitted hcert env (l.admitCertificate cert).1
  exact ⟨hsettled.orphans, hsettled.written.round cert.round⟩

theorem handleCertificateMessage_written (h : l.Known Q)
    (hw : Written (fun c => Q c.header) s l.certState) (hcert : Q cert.header) (env : Env) :
    (l.handleCertificateMessage env cert).Known Q ∧
      Written (fun c => Q c.header) s (l.handleCertificateMessage env cert).certState := by
  obtain ⟨horphans, hwritten⟩ := handleCertificateMessage_replayed ⟨h.orphans, hw⟩ hcert env
  refine ⟨⟨?_, horphans⟩, hwritten⟩
  obtain ⟨⟨currentRound, hprimary⟩, -⟩ := l.primary.handleCertificate_eq l.certStore cert
  obtain ⟨_, _, _, _, heq⟩ := l.handleCertificateMessage_eq env cert
  rw [heq, hprimary]
  exact h.tracked

theorem foldl_handleCertificateMessage_written (env : Env) {certs : List Certificate}
    (h : l.Known Q) (hw : Written (fun c => Q c.header) s l.certState)
    (hcerts : ∀ cert ∈ certs, Q cert.header) :
    (certs.foldl (fun l cert => l.handleCertificateMessage env cert) l).Known Q ∧
      Written (fun c => Q c.header) s
        (certs.foldl (fun l cert => l.handleCertificateMessage env cert) l).certState := by
  induction certs generalizing l with
  | nil => exact ⟨h, hw⟩
  | cons cert certs ih =>
    obtain ⟨hknown, hwritten⟩ :=
      handleCertificateMessage_written h hw (hcerts cert List.mem_cons_self) env
    exact ih hknown hwritten fun c hc => hcerts c (List.mem_cons_of_mem _ hc)

end

/-! ## What a replay leaves

A pass that adds something shortens the buffer, so the last pass added nothing: what is
left was refused with the DAG as it then stays. -/

section

variable [CertificateStore CS] [AcceptingCertificateStore CS]

theorem replayOne_cases (haccepts : AcceptingCertificateStore.accepts acc.1.certStore)
    (cert : Certificate) :
    (¬ acc.1.dag.Admits acc.1.certStore cert ∧
      replayOne acc cert =
        ({ acc.1 with dag := acc.1.dag.ensureRound cert.round }, acc.2)) ∨
    (acc.1.dag.Admits acc.1.certStore cert ∧
      replayOne acc cert =
        ({ acc.1 with
            dag := (acc.1.dag.ensureRound cert.round).insertCertificate cert
            certStore := (CertificateStore.saveCertificate acc.1.certStore cert).2
            orphanCerts := acc.1.orphanCerts.del cert.digest }, acc.2 + 1)) := by
  rcases acc.1.dag.addCertificate_of_accepts haccepts cert with
    ⟨hnot, err, heq⟩ | ⟨hadm, heq⟩
  · refine .inl ⟨hnot, ?_⟩
    rw [replayOne, heq]
  · refine .inr ⟨hadm, ?_⟩
    rw [replayOne, heq]

variable {I : Looseberry BS CS TI → Prop} {Q : Looseberry BS CS TI → Certificate → Prop}

theorem ReplayRule.progress (h : ReplayRule I Q)
    (haccepts : ∀ l, I l → AcceptingCertificateStore.accepts l.certStore)
    (hin : ∀ l cert, I l → Q l cert → l.dag.Admits l.certStore cert →
      l.orphanCerts.get cert.digest = some cert)
    {certs : List Certificate} (hacc : I acc.1) (hcerts : ∀ cert ∈ certs, Q acc.1 cert) :
    (∃ dag, acc.1.dag.Same dag ∧ certs.foldl replayOne acc = ({ acc.1 with dag }, acc.2) ∧
      ∀ cert ∈ certs, ¬ acc.1.dag.Admits acc.1.certStore cert) ∨
    (acc.2 < (certs.foldl replayOne acc).2 ∧
      (certs.foldl replayOne acc).1.orphanCerts.len < acc.1.orphanCerts.len) := by
  induction certs generalizing acc with
  | nil => exact .inl ⟨acc.1.dag, .refl _, rfl, fun _ hmem => absurd hmem (by simp)⟩
  | cons cert certs ih =>
    have hcert := hcerts cert List.mem_cons_self
    have hnext := ih (h.one acc cert hacc hcert) fun cert' hmem =>
      h.rest acc cert cert' hacc hcert (hcerts cert' (List.mem_cons_of_mem _ hmem))
    rw [List.foldl_cons]
    rcases replayOne_cases (haccepts _ hacc) cert with ⟨hnot, heq⟩ | ⟨hadm, heq⟩
    · rw [heq] at hnext ⊢
      have hsame := acc.1.dag.same_ensureRound cert.round
      rcases hnext with ⟨dag, hdag, hfold, hnone⟩ | hshorter
      · refine .inl ⟨dag, hsame.trans hdag, hfold, fun cert' hmem => ?_⟩
        rcases List.mem_cons.mp hmem with rfl | hmem
        · exact hnot
        · exact fun hadm => hnone cert' hmem (hsame.admits.mpr hadm)
      · exact .inr hshorter
    · have hlen : (acc.1.orphanCerts.del cert.digest).len < acc.1.orphanCerts.len :=
        Nat.lt_of_succ_le (Nat.le_of_eq (GoMap.len_del (hin _ cert hacc hcert hadm)))
      rw [heq] at hnext ⊢
      rcases hnext with ⟨dag, -, hfold, -⟩ | ⟨hcount, hbuffer⟩
      · rw [hfold]
        exact .inr ⟨Nat.lt_succ_self _, hlen⟩
      · exact .inr ⟨Nat.lt_trans (Nat.lt_succ_self _) hcount, Nat.lt_trans hbuffer hlen⟩

/-- Nothing that could be added is left in the buffer, if whatever is added during the
replay is taken out of it. -/
theorem ReplayRule.exhausts (h : ReplayRule I Q)
    (haccepts : ∀ l, I l → AcceptingCertificateStore.accepts l.certStore)
    (hin : ∀ l cert, I l → Q l cert → l.dag.Admits l.certStore cert →
      l.orphanCerts.get cert.digest = some cert)
    (order : Nat → IterOrder Certificate) {fuel : Nat} {l : Looseberry BS CS TI} (hl : I l)
    (hfuel : l.orphanCerts.len < fuel) {cert : Certificate}
    (hcert : cert ∈ (replayOrphanCerts order fuel l).orphanCerts.values) :
    ¬ (replayOrphanCerts order fuel l).dag.Admits (replayOrphanCerts order fuel l).certStore
      cert := by
  induction fuel generalizing l with
  | zero => exact absurd hfuel (Nat.not_lt_zero _)
  | succ fuel ih =>
    have hcerts : ∀ cert ∈ (order fuel).arrange l.orphanCerts.values, Q l cert :=
      fun cert hmem => h.buffered l cert hl ((order fuel).mem_arrange.mp hmem)
    have hpass : I (((order fuel).arrange l.orphanCerts.values).foldl replayOne (l, 0)).1 :=
      h.foldl_replayOne hl hcerts
    rw [replayOrphanCerts] at hcert ⊢
    rcases h.progress haccepts hin (show I (l, 0).1 from hl) hcerts with
      ⟨dag, hsame, hfold, hnone⟩ | ⟨hcount, hshorter⟩
    · rw [hfold] at hcert ⊢
      intro hadm
      exact hnone cert ((order fuel).mem_arrange.mpr hcert) (hsame.admits.mp hadm)
    · rw [if_neg (Nat.ne_of_gt hcount)] at hcert ⊢
      exact ih hpass (Nat.lt_of_lt_of_le hshorter (Nat.le_of_lt_succ hfuel)) hcert

end

/-! ## Steps

Every event but a collection is a sequence of writes, of certificates the node knows or the event
brings. -/

section

variable [SliceSort] [BatchStore BS] [CertificateStore CS] [TxIndex TI]

theorem step_flow_of_quiet (l : Looseberry BS CS TI) (ev : Event × Env)
    (h : quiet ev.1 = true) : (l.step ev).1.flow = l.flow := by
  obtain ⟨_, _, _, _, _, _, heq, -⟩ := l.step_eq_of_quiet ev h
  rw [heq]

/-- The headers an event adds to those the node knows have the property. -/
def Brings (Q : Header → Prop) (l : Looseberry BS CS TI) (ev : Event × Env) : Prop :=
  match ev.1 with
  | .certificateMessage cert => Q cert.header
  | .syncResponse resp _ => ∀ cert ∈ resp.certificates, Q cert.header
  | .headerTick =>
    ∀ header ∈ l.primary.nextHeader l.certStore l.pool.hasBatchAckQuorum ev.2.now, Q header
  | _ => True

instance (Q : Header → Prop) [DecidablePred Q] (l : Looseberry BS CS TI) (ev : Event × Env) :
    Decidable (l.Brings Q ev) := by
  unfold Brings
  split <;> infer_instance

variable {l : Looseberry BS CS TI} {ev : Event × Env}

/-- An event that is no collection writes certificates the node knows, or brings. -/
theorem step_written {Q : Header → Prop} (h : l.Known Q) (hev : l.Brings Q ev)
    (hcollect : l.collecting ev.1 = none) :
    (l.step ev).1.Known Q ∧
      Written (fun c => Q c.header) l.certState (l.step ev).1.certState := by
  cases hquiet : quiet ev.1 with
  | true =>
    obtain ⟨-, -, ⟨batchDigests, hprimary⟩, -, hdag, hstore, horphans⟩ :=
      l.step_alike ev hquiet
    refine ⟨⟨by rw [hprimary]; exact h.tracked, by rw [horphans]; exact h.orphans⟩, ?_⟩
    unfold certState
    rw [hdag, hstore, l.step_flow_of_quiet ev hquiet]
    exact .refl _
  | false =>
    obtain ⟨ev, env⟩ := ev
    have hformed : Formed.Tracked Q l.certState l.primary l.certStore
        { dag := l.dag, flow := l.flow, certs := [] } := ⟨h.tracked, .refl _⟩
    cases ev with
    | notifyCommitted | gcTick => exact absurd hcollect (by simp [collecting])
    | updateValidatorSet _ => exact ⟨⟨h.tracked, h.orphans⟩, .refl _⟩
    | certificateMessage cert =>
      exact handleCertificateMessage_written h (.refl _) hev env
    | syncResponse resp sender =>
      refine foldl_handleCertificateMessage_written env
        (l := (l.takeSyncResponse resp sender).2) ⟨h.tracked, h.orphans⟩ (.refl _) ?_
      exact fun cert hcert => hev cert (SyncManager.verify_of_delivered hcert).1
    | voteMessage vote =>
      have hvote := handleVote_tracked hformed vote env.votes env.now
      exact ⟨⟨hvote.tracked, h.orphans⟩, hvote.written⟩
    | headerTick =>
      have htick := tryCreateHeader_tracked hformed hev env.votes
      exact ⟨⟨htick.tracked, h.orphans⟩, htick.written⟩
    | voteCleanupTick =>
      refine ⟨⟨fun d ph hph => ?_, h.orphans⟩, .refl _⟩
      exact h.tracked d ph (VoteTracker.get_removeTimedOut hph)
    | _ => exact absurd hquiet (by simp [quiet])

/-! ## Collections

A collection marks, prunes and deletes, and writes nothing. With this and `step_written`, what
writing, marking, pruning and deleting keep, every run keeps. -/

omit [SliceSort] in
theorem gcTick_certStore (l : Looseberry BS CS TI) (env : Env) :
    (l.gcTick env).1.certStore = l.certStore ∨
      (l.gcTick env).1.certStore =
        (CertificateStore.deleteCertificatesBefore l.certStore l.gc.calculateGCRound).2 :=
  l.gc.collect_certStore l.gcTargets env.gc l.txRecovery

omit [SliceSort] in
theorem gcTick_dag (l : Looseberry BS CS TI) (env : Env) :
    (l.gcTick env).1.dag = l.dag ∨ ∃ r, (l.gcTick env).1.dag = l.dag.pruneRoundsBefore r := by
  rcases l.gc.collect_dag l.gcTargets env.gc l.txRecovery with ⟨-, h⟩ | ⟨-, h, -⟩
  · refine .inl ?_
    show (l.gc.collect l.gcTargets env.gc l.txRecovery).2.2.dag = _
    rw [h]
    rfl
  · exact .inr ⟨_, h⟩

/-- A collection takes from the DAG and from the store what is below some round, if
anything, and leaves the rest of the node to which certificates belong alone. -/
structure Collected (m l : Looseberry BS CS TI) : Prop where
  dag : l.dag = m.dag ∨ ∃ r, l.dag = m.dag.pruneRoundsBefore r
  certStore : l.certStore = m.certStore ∨
    ∃ r, l.certStore = (CertificateStore.deleteCertificatesBefore m.certStore r).2
  flow : l.flow = m.flow
  primary : l.primary = m.primary
  orphanCerts : l.orphanCerts = m.orphanCerts

theorem step_collected {l m : Looseberry BS CS TI} (h : l.collecting ev.1 = some m) :
    m.Collected (l.step ev).1 := by
  obtain ⟨_, _, heq⟩ := step_of_collecting h
  rw [heq]
  exact ⟨m.gcTick_dag ev.2, (m.gcTick_certStore ev.2).imp_right fun h => ⟨_, h⟩, rfl, rfl, rfl⟩

variable {I : Dag → Prop}

omit [SliceSort] [BatchStore BS] [CertificateStore CS] [TxIndex TI] in
theorem collecting_dag (hset : ∀ d round, I d → I (d.setCommittedRound round))
    {l m : Looseberry BS CS TI} {ev : Event} (h : l.collecting ev = some m) (hl : I l.dag) :
    I m.dag := by
  cases ev with
  | gcTick => cases h; exact hl
  | notifyCommitted round =>
    cases h
    rcases l.markCommitted_dag round with heq | heq
    · rw [heq]
      exact hset _ round hl
    · rw [heq]
      exact hset _ round (hset _ round hl)
  | _ => exact absurd h (by simp [collecting])

theorem step_dag_of_collecting (hset : ∀ d round, I d → I (d.setCommittedRound round))
    (hprune : ∀ d round, I d → I (d.pruneRoundsBefore round)) {l m : Looseberry BS CS TI}
    (h : l.collecting ev.1 = some m) (hl : I l.dag) : I (l.step ev).1.dag := by
  have hm := collecting_dag hset h hl
  rcases (step_collected h).dag with heq | ⟨r, heq⟩
  · rw [heq]
    exact hm
  · rw [heq]
    exact hprune m.dag r hm

theorem step_certStore_of_collecting {I : CS → Prop}
    (hdelete : ∀ s round, I s → I (CertificateStore.deleteCertificatesBefore s round).2)
    {l m : Looseberry BS CS TI} (h : l.collecting ev.1 = some m) (hl : I l.certStore) :
    I (l.step ev).1.certStore := by
  obtain ⟨_, _, _, rfl⟩ := collecting_eq h
  rcases (step_collected h).certStore with heq | ⟨r, heq⟩
  · rw [heq]
    exact hl
  · rw [heq]
    exact hdelete l.certStore r hl

theorem step_known_of_collecting {Q : Header → Prop} {l m : Looseberry BS CS TI}
    (h : l.collecting ev.1 = some m) (hl : l.Known Q) : (l.step ev).1.Known Q := by
  obtain ⟨_, _, _, rfl⟩ := collecting_eq h
  have hc := step_collected h
  refine ⟨?_, ?_⟩
  · rw [hc.primary]
    exact hl.tracked
  · rw [hc.orphanCerts]
    exact hl.orphans

omit [SliceSort] [BatchStore BS] [CertificateStore CS] [TxIndex TI] in
theorem started_known (Q : Header → Prop) (h : l.Started) : l.Known Q := by
  obtain ⟨cfg, vs, batchStore, certStore, txIndex, now, rfl⟩ := h
  refine ⟨fun d ph hph => ?_, fun c hc => ?_⟩
  · exact absurd hph (by simp [start, Primary.new, VoteTracker.new])
  · exact absurd (GoMap.mem_values.mp hc) (by simp [start])

omit [SliceSort] [BatchStore BS] [CertificateStore CS] [TxIndex TI] in
theorem known_true (l : Looseberry BS CS TI) : l.Known fun _ => True :=
  ⟨fun _ _ _ => trivial, fun _ _ => trivial⟩

omit [SliceSort] [BatchStore BS] [TxIndex TI] in
theorem brings_true [SliceSort] (l : Looseberry BS CS TI) (ev : Event × Env) :
    l.Brings (fun _ => True) ev := by
  unfold Brings
  split
  · trivial
  · exact fun _ _ => trivial
  · exact fun _ _ => trivial
  · trivial

theorem step_dag_invariant (hadd : ∀ (d : Dag) (certStore : CS) (c : Certificate), I d →
      I (d.addCertificate certStore c).2.1)
    (hset : ∀ d round, I d → I (d.setCommittedRound round))
    (hprune : ∀ d round, I d → I (d.pruneRoundsBefore round)) (hl : I l.dag) (ev : Event × Env) :
    I (l.step ev).1.dag := by
  cases hcollect : l.collecting ev.1 with
  | none =>
    have hwritten := (step_written l.known_true (l.brings_true ev) hcollect).2
    exact hwritten.dag_invariant (fun d certStore c _ hd => hadd d certStore c hd) hl
  | some m => exact step_dag_of_collecting hset hprune hcollect hl

theorem certStore_of_reach {I : CS → Prop}
    (hsave : ∀ s c, I s → I (CertificateStore.saveCertificate s c).2)
    (hdelete : ∀ s round, I s → I (CertificateStore.deleteCertificatesBefore s round).2)
    {init : Looseberry BS CS TI → Prop} (hinit : ∀ l, init l → I l.certStore)
    {ok : Looseberry BS CS TI → List Output → Event × Env → Prop} {log : List Output}
    (h : Reach init ok l log) : I l.certStore := by
  refine Run.Reach.invariant (I := fun (l : Looseberry BS CS TI) _ => I l.certStore)
    (fun l h0 => hinit l h0.2) (fun l log ev hl _ => ?_) h
  cases hcollect : l.collecting ev.1 with
  | none =>
    have hwritten := (step_written l.known_true (l.brings_true ev) hcollect).2
    exact hwritten.certStore_invariant (fun s c _ hs => hsave s c hs) hl
  | some m => exact step_certStore_of_collecting hdelete hcollect hl

theorem step_shaped (h : l.dag.Shaped) (ev : Event × Env) : (l.step ev).1.dag.Shaped :=
  step_dag_invariant (I := Dag.Shaped) (fun _ certStore c hd => hd.addCertificate certStore c)
    (fun _ round hd => hd.setCommittedRound round)
    (fun _ round hd => hd.pruneRoundsBefore round) h ev

omit [SliceSort] [BatchStore BS] [CertificateStore CS] [TxIndex TI] in
theorem started_shaped (h : l.Started) : l.dag.Shaped := by
  obtain ⟨cfg, vs, batchStore, certStore, txIndex, now, rfl⟩ := h
  exact Dag.shaped_new _

theorem shaped_of_reach {init : Looseberry BS CS TI → Prop}
    {ok : Looseberry BS CS TI → List Output → Event × Env → Prop} {log : List Output}
    (h : Reach init ok l log) : l.dag.Shaped :=
  Run.Reach.invariant (I := fun l _ => l.dag.Shaped)
    (fun _ h0 => started_shaped h0.1) (fun _ _ ev hl _ => step_shaped hl ev) h

end

end Looseberry

end DagMempool
