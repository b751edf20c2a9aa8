import DagMempool.Node.Ideal
import DagMempool.Proofs.NodeFrame

/-!
# Causal completeness of the DAG

A certificate is admitted when its parents are known, and known means in the index
of the DAG or in the certificate store. The primary saves every certificate that
verifies, before the DAG has seen it. So a certificate that waits for its parents
among the orphans is already known, and one that refers to it is admitted while it
is not: an orphan of an orphan does not wait.

The parents of what is in the DAG are in the DAG as long as no certificate is ever
handed over, or buffered, that refers to one which is in the store only. This is a
condition on what is delivered when; `Waits` states it event by event.
-/

namespace DagMempool

/-! ## Certificates and their parents

A certificate that is added has its parents in the index, or in the store only. The second kind is
what breaks causality, so the lemmas carry it as the condition `StoreHeld`. -/

namespace Dag

/-- In memory, a certificate of a round above the first has its parents with it, and
the index lists exactly what the rounds hold. -/
structure Causal (d : Dag) : Prop where
  closed : ∀ r a c, d.slot r a = some c → 0 < c.round →
    ∀ ref ∈ c.header.parents, d.Holds ref.digest
  index : ∀ digest, d.certIndex.has digest = true ↔ d.Holds digest

section

variable {CS : Type} [CertificateStore CS] {d : Dag} {certStore : CS} {cert : Certificate}

theorem Holds.addCertificate {digest : Hash} (h : d.Holds digest) (certStore : CS)
    (cert : Certificate) : (d.addCertificate certStore cert).2.1.Holds digest := by
  obtain ⟨r, a, c, hslot, hdigest⟩ := h
  exact ⟨r, a, c, slot_addCertificate_of_slot hslot certStore cert, hdigest⟩

theorem Admits.holds (h : d.Admits certStore cert) :
    (d.addCertificate certStore cert).2.1.Holds cert.digest :=
  ⟨cert.round, cert.author, cert, h.slot, rfl⟩

theorem Causal.addCertificate (h : d.Causal)
    (hparents : ∀ ref ∈ cert.header.parents,
      CertificateStore.hasCertificate certStore ref.digest = true →
        d.Holds ref.digest ∨ ref.digest = cert.digest) :
    (d.addCertificate certStore cert).2.1.Causal := by
  refine ⟨fun r a c hc hpos ref href => ?_, fun digest => ⟨fun hhas => ?_, fun hholds => ?_⟩⟩
  · rcases slot_addCertificate hc with hold | ⟨rfl, -, -, hadm⟩
    · exact (h.closed r a c hold hpos ref href).addCertificate certStore cert
    · have hknown := hadm.parents hpos ref href
      rw [Dag.hasCertificate, Bool.or_eq_true] at hknown
      rcases hknown with hindex | hstore
      · exact ((h.index _).mp hindex).addCertificate certStore c
      · rcases hparents ref href hstore with hheld | hself
        · exact hheld.addCertificate certStore c
        · rw [hself]
          exact hadm.holds
  · obtain ⟨c, hc⟩ := GoMap.has_iff.mp hhas
    rcases certIndex_addCertificate hc with hold | ⟨-, rfl, hadm⟩
    · exact ((h.index _).mp (GoMap.has_iff.mpr ⟨c, hold⟩)).addCertificate certStore cert
    · exact hadm.holds
  · obtain ⟨r, a, c, hc, hdigest⟩ := hholds
    rcases d.addCertificate_cases certStore cert with ⟨err, heq, -⟩ | ⟨-, heq⟩
    · rw [heq, slot_ensureRound] at hc
      rw [heq, certIndex_ensureRound]
      exact (h.index _).mpr ⟨r, a, c, hc, hdigest⟩
    · rw [heq, certIndex_insertCertificate, certIndex_ensureRound, GoMap.has_set]
      rw [heq, slot_insertCertificate] at hc
      split at hc
      · cases hc
        exact .inl hdigest.symm
      · rw [slot_ensureRound] at hc
        exact .inr ((h.index _).mpr ⟨r, a, c, hc, hdigest⟩)

theorem hasCertificate_addCertificate [LawfulCertificateStore CS] {digest : Hash}
    (h : CertificateStore.hasCertificate (d.addCertificate certStore cert).2.2 digest = true) :
    CertificateStore.hasCertificate certStore digest = true ∨
      digest = cert.digest ∧ d.Admits certStore cert := by
  rcases d.addCertificate_cases certStore cert with ⟨err, heq, -⟩ | ⟨hadm, heq⟩
  · rw [heq] at h
    exact .inl h
  · rw [heq] at h
    rcases hasCertificate_save h with hold | hnew
    · exact .inl hold
    · exact .inr ⟨hnew, hadm⟩

/-- No parent of the certificate is in the store only. -/
def StoreHeld (d : Dag) (certStore : CS) (cert : Certificate) : Prop :=
  ∀ ref ∈ cert.header.parents,
    CertificateStore.hasCertificate certStore ref.digest = true → d.Holds ref.digest
deriving Decidable

theorem StoreHeld.addCertificate [LawfulCertificateStore CS] {c : Certificate}
    (h : d.StoreHeld certStore c) (cert : Certificate) :
    (d.addCertificate certStore cert).2.1.StoreHeld
      (d.addCertificate certStore cert).2.2 c := by
  intro ref href hstore
  rcases hasCertificate_addCertificate hstore with hold | ⟨hself, hadm⟩
  · exact (h ref href hold).addCertificate certStore cert
  · rw [hself]
    exact hadm.holds

end

end Dag

/-- None of the certificates has this digest among its parents. -/
def NoneRefersTo (certs : List Certificate) (digest : Hash) : Prop :=
  ∀ c ∈ certs, ∀ ref ∈ c.header.parents, ref.digest ≠ digest
deriving Decidable

/-- A certificate may be saved before it is added, if it is then admitted, is there
already, or is not referred to. -/
theorem Dag.StoreHeld.save_addCertificate {CS : Type} [CertificateStore CS]
    [LawfulCertificateStore CS] {d : Dag} {certStore certStore' : CS} {c cert : Certificate}
    (h : d.StoreHeld certStore c)
    (hsave : ∀ digest, CertificateStore.hasCertificate certStore' digest = true →
      CertificateStore.hasCertificate certStore digest = true ∨ digest = cert.digest)
    (hc : d.Admits certStore' cert ∨ d.Holds cert.digest ∨ NoneRefersTo [c] cert.digest) :
    (d.addCertificate certStore' cert).2.1.StoreHeld
      (d.addCertificate certStore' cert).2.2 c := by
  have hself : ∀ ref ∈ c.header.parents, ref.digest = cert.digest →
      (d.addCertificate certStore' cert).2.1.Holds cert.digest := by
    intro ref href hdigest
    rcases hc with hadm | hheld | hnone
    · exact hadm.holds
    · exact hheld.addCertificate certStore' cert
    · exact absurd hdigest (hnone c (List.mem_singleton.mpr rfl) ref href)
  intro ref href hstore
  rcases hasCertificate_addCertificate hstore with hstore' | ⟨hdigest, -⟩
  · rcases hsave _ hstore' with hold | hdigest
    · exact (h ref href hold).addCertificate certStore' cert
    · rw [hdigest]
      exact hself ref href hdigest
  · rw [hdigest]
    exact hself ref href hdigest

/-! ## Certificates the node forms

The headers a node tracks refer to certificates that were in the DAG when the header
was made. What is formed from them is admitted, unless the node's slot of that round
is taken by an earlier header of its own. -/

structure Primary.Causal [Crypto] (d : Dag) (p : Primary) : Prop where
  tracked : ∀ digest ph, p.voteTracker.pending.get digest = some ph →
    ph.header.digest = digest ∧ ∀ ref ∈ ph.header.parents, d.Holds ref.digest
  buffered : ∀ digest entry, p.pendingVotes.get digest = some entry →
    ∀ vote ∈ entry.votes, vote.headerDigest = digest

section

open Looseberry

variable [Crypto] {CS : Type} [CertificateStore CS] {orphans : List Certificate}

structure Formed.Causal (orphans : List Certificate) (p : Primary) (certStore : CS)
    (k : Formed) : Prop where
  dag : k.dag.Causal
  primary : p.Causal k.dag
  orphans : ∀ o ∈ orphans, k.dag.StoreHeld certStore o

/-- The tracked header with this digest can still be certified without harm. -/
def Formed.FreeFor (orphans : List Certificate) (digest : Hash) (p : Primary) (k : Formed) :
    Prop :=
  ∀ ph, p.voteTracker.pending.get digest = some ph →
    k.dag.slot ph.header.round ph.header.author = none ∨ NoneRefersTo orphans digest

variable [LawfulCertificateStore CS] [SliceSort]
variable {k : Formed} {p : Primary} {certStore : CS}

theorem recordVote_causal {vote : Vote} (h : Formed.Causal orphans p certStore k)
    (hfree : Formed.FreeFor orphans vote.headerDigest p k) (order : IterOrder Vote) (now : Int) :
    Primary.Leaves (fun p certStore k => Formed.Causal orphans p certStore k ∧
        Formed.FreeFor orphans vote.headerDigest p k)
      (p.recordVote certStore onCertificateFormed k vote order now).2 := by
  obtain ⟨vt, hvt, hcases⟩ :=
    p.recordVote_cases certStore onCertificateFormed k vote order now
  -- A vote more does not change the header that is pending.
  have htracked := hvt.forall_pending
    (T := fun d ph => ph.header.digest = d ∧ ∀ ref ∈ ph.header.parents, k.dag.Holds ref.digest)
    (fun _ hph => hph) h.primary.tracked
  have hfree' := hvt.forall_pending
    (T := fun d ph => d = vote.headerDigest →
      k.dag.slot ph.header.round ph.header.author = none ∨ NoneRefersTo orphans d)
    (fun _ hph => hph) (fun d ph hph hd => by subst hd; exact hfree ph hph)
  rcases hcases with heq | ⟨ph, hph, -, heq⟩
  · rw [heq]
    exact ⟨⟨h.dag, ⟨htracked, h.primary.buffered⟩, h.orphans⟩,
      fun ph hph => hfree' _ ph hph rfl⟩
  · rw [heq]
    obtain ⟨hdigest, hparents⟩ := htracked _ ph hph
    generalize hcert : VoteTracker.formCertificate ph p.validatorSet.quorum order = cert
    have hheader : cert.header = ph.header := by rw [← hcert]; rfl
    have hcd : cert.digest = vote.headerDigest := by rw [Certificate.digest, hheader, hdigest]
    have hheld : ∀ ref ∈ cert.header.parents, k.dag.Holds ref.digest := by
      rw [hheader]; exact hparents
    have hcond : k.dag.Admits (CertificateStore.saveCertificate certStore cert).2 cert ∨
        NoneRefersTo orphans cert.digest := by
      rcases hfree' _ ph hph rfl with hslot | hnone
      · refine .inl ⟨by rw [Certificate.round, Certificate.author, hheader]; exact hslot, ?_⟩
        intro _ ref href
        rw [Dag.hasCertificate, (h.dag.index _).mpr (hheld ref href), Bool.true_or]
      · exact .inr (hcd.symm ▸ hnone)
    refine ⟨⟨?_, ⟨fun d ph' hph' => ?_, h.primary.buffered⟩, fun o ho => ?_⟩, ?_⟩
    · exact h.dag.addCertificate fun ref href _ => .inl (hheld ref href)
    · obtain ⟨hd, hp⟩ := htracked d ph' (VoteTracker.get_removeHeader hph')
      exact ⟨hd, fun ref href => (hp ref href).addCertificate _ cert⟩
    · refine (h.orphans o ho).save_addCertificate (fun _ => hasCertificate_save) ?_
      rcases hcond with hadm | hnone
      · exact .inl hadm
      · exact .inr (.inr fun c hc => hnone c (by rw [List.mem_singleton.mp hc]; exact ho))
    · intro ph' hph'
      exact absurd rfl (GoMap.get_del_eq_some.mp hph').1

theorem keeps_causal (order : IterOrder Vote) (now : Int) (digest : Hash) :
    Primary.Keeps
      (fun p certStore k => Formed.Causal orphans p certStore k ∧
        Formed.FreeFor orphans digest p k)
      (fun vote => vote.headerDigest = digest)
      (onCertificateFormed : CertSink Formed CS) order now digest where
  record hI hV := by
    subst hV
    exact recordVote_causal hI.1 hI.2 order now
  round _ hI := ⟨⟨hI.1.dag, ⟨hI.1.primary.tracked, hI.1.primary.buffered⟩, hI.1.orphans⟩, hI.2⟩
  buffered hI hentry := hI.1.primary.buffered digest _ hentry
  unbuffer hI :=
    ⟨⟨hI.1.dag, ⟨hI.1.primary.tracked, fun d entry hentry =>
      hI.1.primary.buffered d entry (GoMap.get_del_eq_some.mp hentry).2⟩, hI.1.orphans⟩, hI.2⟩

theorem handleVote_causal (h : Formed.Causal orphans p certStore k) {vote : Vote}
    (hfree : Formed.FreeFor orphans vote.headerDigest p k) (order : IterOrder Vote) (now : Int) :
    Primary.Leaves (Formed.Causal orphans)
      (p.handleVote certStore onCertificateFormed k vote order now).2 := by
  refine Primary.handleVote_leaves h fun _ => ⟨?_, (recordVote_causal h hfree order now).1⟩
  refine ⟨h.dag, ⟨h.primary.tracked, fun d entry hentry v hv => ?_⟩, h.orphans⟩
  rcases Primary.mem_bufferVote hentry hv with ⟨entry', hold, hv'⟩ | ⟨rfl, rfl⟩
  · exact h.primary.buffered d entry' hold v hv'
  · rfl

/-- What a tick of the header loop asks for: nothing among the candidates for parents
is in the store only, and no orphan waits for a header of the node whose slot is
taken. -/
structure Formed.Ready (orphans : List Certificate) (p : Primary) (certStore : CS) (d : Dag) :
    Prop where
  candidates : ∀ c ∈ p.candidates certStore, d.Holds c.digest
  tracked : ∀ ph ∈ p.voteTracker.pending.values,
    d.slot ph.header.round ph.header.author = none ∨ NoneRefersTo orphans ph.header.digest
  own : d.slot p.currentRound p.validatorID = none ∨ orphans = []

theorem tryCreateHeader_causal (h : Formed.Causal orphans p certStore k)
    (hready : Formed.Ready orphans p certStore k.dag) (hasAckQuorum : Hash → Bool)
    (order : IterOrder Vote) (now : Int) :
    Primary.Leaves (Formed.Causal orphans)
      (p.tryCreateHeader certStore onCertificateFormed k hasAckQuorum order now).2 := by
  refine Primary.tryCreateHeader_survives
    (J := fun header p certStore k => Formed.Causal orphans p certStore k ∧
      Formed.FreeFor orphans header.digest p k)
    (V := fun header vote => vote.headerDigest = header.digest) hasAckQuorum
    (fun rest => ⟨h.dag, ⟨h.primary.tracked, h.primary.buffered⟩, h.orphans⟩) ?_
    (fun header => (keeps_causal order now header.digest).survives) (fun _ _ _ _ hJ => hJ.1)
  intro rest digests header _ hb
  obtain ⟨sig, -, rfl⟩ := Primary.buildHeader_eq_some hb
  refine ⟨⟨⟨h.dag, ⟨fun d ph hph => ?_, h.primary.buffered⟩, h.orphans⟩, fun ph hph => ?_⟩,
    fun vote hvote => ?_⟩
  · rcases VoteTracker.get_trackHeader hph with hold | ⟨rfl, rfl⟩
    · exact h.primary.tracked d ph hold
    · refine ⟨rfl, fun ref href => ?_⟩
      obtain ⟨c, hc, hdigest⟩ := Primary.mem_selectParents href
      rw [hdigest]
      exact hready.candidates c hc
  · rcases VoteTracker.get_trackHeader hph with hold | ⟨-, rfl⟩
    · rw [← (h.primary.tracked _ ph hold).1]
      exact hready.tracked ph (GoMap.mem_values.mpr ⟨_, hold⟩)
    · rcases hready.own with hslot | hnil
      · exact .inl hslot
      · exact .inr fun c hc => absurd hc (by simp [hnil])
  · obtain ⟨sig', -, rfl⟩ := Vote.sign_eq_ok hvote
    rfl

end

/-! ## The node

The state of the node is causal when its DAG is, and the certificates it can still form and those
that wait can be added without harm. -/

namespace Looseberry

variable [Crypto] {BS CS TI : Type} [CertificateStore CS]

structure Causal (l : Looseberry BS CS TI) : Prop where
  dag : l.dag.Causal
  primary : l.primary.Causal l.dag
  orphans : ∀ o ∈ l.orphanCerts.values, l.dag.StoreHeld l.certStore o

theorem Causal.alike {l l' : Looseberry BS CS TI} (h : l.Causal) (hlike : l.Alike l') :
    l'.Causal := by
  obtain ⟨-, -, ⟨batchDigests, hprimary⟩, -, hdag, hstore, horphans⟩ := hlike
  refine ⟨by rw [hdag]; exact h.dag, ?_, by rw [hdag, hstore, horphans]; exact h.orphans⟩
  rw [hdag, hprimary]
  exact ⟨h.primary.tracked, h.primary.buffered⟩

/-- A certificate may be delivered: no parent of it is in the store only, and if it
cannot be admitted, no orphan, nor it itself, refers to it. -/
@[mk_iff] structure Deliverable (l : Looseberry BS CS TI) (cert : Certificate) : Prop where
  parents : l.dag.StoreHeld l.certStore cert
  awaited : l.dag.Admits l.certStore cert ∨ l.dag.Holds cert.digest ∨
    NoneRefersTo (cert :: l.orphanCerts.values) cert.digest

instance (l : Looseberry BS CS TI) (cert : Certificate) : Decidable (l.Deliverable cert) :=
  decidable_of_iff' _ (deliverable_iff l cert)

/-- Each certificate of a response may be delivered when its turn comes. -/
def DeliverableInTurn (env : Env) : Looseberry BS CS TI → List Certificate → Prop
  | _, [] => True
  | l, cert :: certs =>
    l.Deliverable cert ∧ DeliverableInTurn env (l.handleCertificateMessage env cert) certs

variable [LawfulCertificateStore CS]

theorem Primary.Causal.mono {d d' : Dag} {p : Primary} (h : p.Causal d)
    (hle : ∀ digest, d.Holds digest → d'.Holds digest) : p.Causal d' :=
  ⟨fun digest ph hph =>
    ⟨(h.tracked digest ph hph).1, fun ref href => hle _ ((h.tracked digest ph hph).2 ref href)⟩,
    h.buffered⟩

variable {l : Looseberry BS CS TI} {cert : Certificate}

theorem replayOne_causal {acc : Looseberry BS CS TI × Nat} (h : acc.1.Causal)
    (hcert : acc.1.dag.StoreHeld acc.1.certStore cert) : (replayOne acc cert).1.Causal := by
  have hdag : (acc.1.dag.addCertificate acc.1.certStore cert).2.1.Causal :=
    h.dag.addCertificate fun ref href hstore => .inl (hcert ref href hstore)
  have hprimary := Primary.Causal.mono h.primary fun digest hheld =>
    hheld.addCertificate acc.1.certStore cert
  unfold replayOne
  dsimp only
  split
  · exact ⟨hdag, hprimary, fun o ho => (h.orphans o ho).addCertificate cert⟩
  · exact ⟨hdag, hprimary, fun o ho =>
      (h.orphans o (GoMap.mem_values_of_del ho)).addCertificate cert⟩

omit [LawfulCertificateStore CS] in
theorem bufferOrphanCert_causal (h : l.Causal) (hcert : l.dag.StoreHeld l.certStore cert) :
    (l.bufferOrphanCert cert).Causal := by
  rcases l.bufferOrphanCert_cases cert with heq | ⟨-, heq⟩
  · rw [heq]
    exact h
  · rw [heq]
    refine ⟨h.dag, h.primary, fun o ho => ?_⟩
    rcases GoMap.mem_values_of_set ho with rfl | hold
    · exact hcert
    · exact h.orphans o hold

theorem settleOrphans_causal (h : l.Causal) (hcert : l.dag.StoreHeld l.certStore cert) (env : Env)
    (answer : Except GoError Unit) : (l.settleOrphans env cert answer).Causal := by
  unfold settleOrphans
  split
  · exact bufferOrphanCert_causal h hcert
  · exact h
  · refine ReplayRule.keeps (Q := fun l cert => l.dag.StoreHeld l.certStore cert)
      ⟨fun _ _ hacc hc => replayOne_causal hacc hc, fun acc c c' _ _ hc' => ?_,
        fun l c hl hmem => hl.orphans c hmem⟩ _ _ h
    have hadded := hc'.addCertificate c
    unfold replayOne
    dsimp only
    split
    · exact hadded
    · exact hadded

theorem admitCertificate_causal (h : l.Causal) (hcert : l.Deliverable cert) :
    (l.admitCertificate cert).2.Causal ∧
      (l.admitCertificate cert).2.dag.StoreHeld (l.admitCertificate cert).2.certStore
        cert := by
  obtain ⟨⟨currentRound, hprimary⟩, hstore⟩ := l.primary.handleCertificate_eq l.certStore cert
  generalize hs : (l.primary.handleCertificate l.certStore cert).2.2 = certStore at hstore
  have hsave : ∀ digest, CertificateStore.hasCertificate certStore digest = true →
      CertificateStore.hasCertificate l.certStore digest = true ∨ digest = cert.digest := by
    intro digest hhas
    rcases hstore with hsame | hsaved
    · exact .inl (hsame ▸ hhas)
    · exact hasCertificate_save (hsaved ▸ hhas)
  have hadmits : l.dag.Admits l.certStore cert → l.dag.Admits certStore cert := by
    rcases hstore with hsame | hsaved
    · rw [hsame]
      exact id
    · rw [hsaved]
      exact fun hadm => hadm.saved cert
  have hheld : ∀ c ∈ cert :: l.orphanCerts.values, l.dag.StoreHeld l.certStore c →
      (l.dag.addCertificate certStore cert).2.1.StoreHeld
        (l.dag.addCertificate certStore cert).2.2 c := by
    intro c hc hbefore
    refine hbefore.save_addCertificate hsave ?_
    rcases hcert.awaited with hadm | hholds | hnone
    · exact .inl (hadmits hadm)
    · exact .inr (.inl hholds)
    · exact .inr (.inr fun c' hc' => hnone c' (by rw [List.mem_singleton.mp hc']; exact hc))
  unfold admitCertificate
  dsimp only
  rw [hs, hprimary]
  refine ⟨⟨?_, ?_, fun o ho => ?_⟩, hheld cert List.mem_cons_self hcert.parents⟩
  · refine h.dag.addCertificate fun ref href hhas => ?_
    exact (hsave _ hhas).imp_left (hcert.parents ref href)
  · obtain ⟨htracked, hbuffered⟩ := Primary.Causal.mono h.primary fun digest hd =>
      Dag.Holds.addCertificate hd certStore cert
    exact ⟨htracked, hbuffered⟩
  · exact hheld o (List.mem_cons_of_mem _ ho) (h.orphans o ho)

theorem handleCertificateMessage_causal (h : l.Causal) (hcert : l.Deliverable cert) (env : Env) :
    (l.handleCertificateMessage env cert).Causal := by
  obtain ⟨hadmitted, hheld⟩ := admitCertificate_causal h hcert
  obtain ⟨hdag, hprimary, horphans⟩ :=
    settleOrphans_causal hadmitted hheld env (l.admitCertificate cert).1
  exact ⟨hdag, hprimary, horphans⟩

theorem foldl_handleCertificateMessage_causal (env : Env) {certs : List Certificate}
    (h : l.Causal) (hcerts : DeliverableInTurn env l certs) :
    (certs.foldl (fun l cert => l.handleCertificateMessage env cert) l).Causal := by
  induction certs generalizing l with
  | nil => exact h
  | cons cert certs ih =>
    exact ih (handleCertificateMessage_causal h hcerts.1 env) hcerts.2

omit [LawfulCertificateStore CS] in
theorem Causal.of_slot_eq {l l' : Looseberry BS CS TI} (h : l.Causal)
    (hslot : ∀ r a, l'.dag.slot r a = l.dag.slot r a)
    (hindex : l'.dag.certIndex = l.dag.certIndex) (hprimary : l'.primary = l.primary)
    (hstore : l'.certStore = l.certStore) (horphans : l'.orphanCerts = l.orphanCerts) :
    l'.Causal := by
  have hholds : ∀ digest, l'.dag.Holds digest ↔ l.dag.Holds digest := by
    intro digest
    simp only [Dag.Holds, hslot]
  refine ⟨⟨fun r a c hc hpos ref href => ?_, fun digest => ?_⟩, ?_, fun o ho ref href hhas => ?_⟩
  · exact (hholds _).mpr (h.dag.closed r a c (by rw [← hslot]; exact hc) hpos ref href)
  · rw [hindex, hholds]
    exact h.dag.index digest
  · rw [hprimary]
    exact Primary.Causal.mono h.primary fun digest => (hholds digest).mpr
  · rw [hstore] at hhas
    rw [horphans] at ho
    exact (hholds _).mpr (h.orphans o ho ref href hhas)

omit [LawfulCertificateStore CS] in
theorem markCommitted_causal (h : l.Causal) (round : UInt64) : (l.markCommitted round).Causal := by
  have hindex : (l.markCommitted round).dag.certIndex = l.dag.certIndex := by
    rcases l.markCommitted_dag round with heq | heq
    · rw [heq]
      rfl
    · rw [heq]
      rfl
  exact h.of_slot_eq (l.slot_markCommitted round) hindex rfl rfl rfl

omit [LawfulCertificateStore CS] in
theorem gcTick_causal [BatchStore BS] [TxIndex TI] (h : l.Causal)
    (hgc : l.gc.calculateGCRound = 0) (env : Env) : (l.gcTick env).1.Causal := by
  have hcollect : l.gc.collect l.gcTargets env.gc l.txRecovery = ([], l.gc, l.gcTargets) :=
    if_pos hgc
  unfold gcTick
  rw [hcollect]
  exact ⟨h.dag, h.primary, h.orphans⟩

omit [LawfulCertificateStore CS] in
theorem started_causal (h : l.Started) : l.Causal := by
  obtain ⟨cfg, vs, batchStore, certStore, txIndex, now, rfl⟩ := h
  refine ⟨⟨fun r a c hc => ?_, fun digest => ⟨fun hhas => ?_, fun hholds => ?_⟩⟩,
    ⟨fun d ph hph => ?_, fun d entry hentry => ?_⟩, fun o ho => ?_⟩
  · exact absurd hc (by simp [start])
  · exact absurd (GoMap.has_iff.mp hhas) (by simp [start, Dag.new])
  · obtain ⟨r, a, c, hc, -⟩ := hholds
    exact absurd hc (by simp [start])
  · exact absurd hph (by simp [start, Primary.new, VoteTracker.new])
  · exact absurd hentry (by simp [start, Primary.new])
  · exact absurd (GoMap.mem_values.mp ho) (by simp [start])

variable [SliceSort] [BatchStore BS] [TxIndex TI]

/-- Nothing is pruned, and no certificate that only the store has is referred to by one
that is delivered, made or waiting. -/
def Waits (l : Looseberry BS CS TI) (_ : List Output) (ev : Event × Env) : Prop :=
  match ev.1 with
  | .certificateMessage cert => l.Deliverable cert
  | .syncResponse resp sender =>
    DeliverableInTurn ev.2 (l.takeSyncResponse resp sender).2
      (l.takeSyncResponse resp sender).1
  | .voteMessage vote =>
    ∀ ph, l.primary.voteTracker.pending.get vote.headerDigest = some ph →
      l.dag.slot ph.header.round ph.header.author = none ∨
        NoneRefersTo l.orphanCerts.values vote.headerDigest
  | .headerTick => Formed.Ready l.orphanCerts.values l.primary l.certStore l.dag
  | .gcTick => l.gc.calculateGCRound = 0
  | .notifyCommitted round => (l.markCommitted round).gc.calculateGCRound = 0
  | _ => True

theorem step_causal {log : List Output} {ev : Event × Env} (h : l.Causal) (hok : l.Waits log ev) :
    (l.step ev).1.Causal := by
  obtain ⟨ev, env⟩ := ev
  have hformed : Formed.Causal l.orphanCerts.values l.primary l.certStore
      { dag := l.dag, flow := l.flow, certs := [] } := ⟨h.dag, h.primary, h.orphans⟩
  cases hev : ev with
  | certificateMessage cert =>
    subst hev
    exact handleCertificateMessage_causal h hok env
  | syncResponse resp sender =>
    subst hev
    have htaken : (l.takeSyncResponse resp sender).2.Causal :=
      ⟨h.dag, h.primary, h.orphans⟩
    exact foldl_handleCertificateMessage_causal env htaken hok
  | voteMessage vote =>
    subst hev
    obtain ⟨hdag, hprimary, horphans⟩ := handleVote_causal hformed hok env.votes env.now
    exact ⟨hdag, hprimary, horphans⟩
  | headerTick =>
    subst hev
    obtain ⟨hdag, hprimary, horphans⟩ :=
      tryCreateHeader_causal hformed hok l.pool.hasBatchAckQuorum env.votes env.now
    exact ⟨hdag, hprimary, horphans⟩
  | gcTick =>
    subst hev
    exact gcTick_causal h hok env
  | notifyCommitted round =>
    subst hev
    obtain ⟨_, _, heq⟩ := l.notifyCommitted_eq env round
    obtain ⟨hdag, hprimary, horphans⟩ := gcTick_causal (markCommitted_causal h round) hok env
    show (l.notifyCommitted env round).1.Causal
    rw [heq]
    exact ⟨hdag, hprimary, horphans⟩
  | updateValidatorSet vs =>
    exact ⟨h.dag, ⟨h.primary.tracked, h.primary.buffered⟩, h.orphans⟩
  | voteCleanupTick =>
    refine ⟨h.dag, ⟨fun d ph hph => ?_, fun d entry hentry => ?_⟩, h.orphans⟩
    · exact h.primary.tracked d ph (VoteTracker.get_removeTimedOut hph)
    · exact h.primary.buffered d entry (GoMap.get_filter_eq_some.mp hentry).1
  | _ => exact h.alike (l.step_alike _ (by subst hev; rfl))

/-- Where orphans wait, and nothing is pruned, every parent of a certificate in the
DAG is in the DAG. -/
theorem dag_causally_complete {l : Looseberry BS CS TI} {log : List Output}
    (h : Reach (fun _ => True) Waits l log) {r : UInt64} {a : UInt16} {c : Certificate}
    (hc : l.dag.slot r a = some c) (hpos : 0 < c.round) {ref : CertificateRef}
    (href : ref ∈ c.header.parents) :
    ∃ r' a' c', l.dag.slot r' a' = some c' ∧ c'.digest = ref.digest := by
  have hl : l.Causal := Run.Reach.invariant (fun _ h0 => started_causal h0.1)
    (fun _ _ _ => step_causal) h
  exact hl.dag.closed r a c hc hpos ref href

end Looseberry

/-! ## An orphan of an orphan

The certificates of the second round wait for the first, and are in the store meanwhile. -/

section

open IdealScheme

def thirdRoundCertificate : Certificate := votedCertificate 1 2 [] (votedRound 1)

/-- Node `0` is sent the second round, all of it orphans, and then a certificate of the
third. That one is admitted: it is alone in the DAG. -/
theorem orphan_of_orphan_admitted :
    ∃ (l : IdealNode) (log : List Output),
      Looseberry.Reach (fun _ => True)
        (fun _ _ ev => ∃ cert, ev.1 = .certificateMessage cert ∧
          cert.verify (idealValidators 4 0) = .ok ()) l log ∧
      l.dag.slot 2 1 = some thirdRoundCertificate ∧ 0 < thirdRoundCertificate.round ∧
      ∃ ref ∈ thirdRoundCertificate.header.parents, ¬ l.dag.Holds ref.digest := by
  refine ⟨_, _, reach_idealExec 0 10
    ((votedRound 1 ++ [thirdRoundCertificate]).map .certificateMessage) trivial ?_, ?_⟩
  · exact ⟨⟨_, rfl, by decide +kernel⟩, ⟨_, rfl, by decide +kernel⟩,
      ⟨_, rfl, by decide +kernel⟩, ⟨_, rfl, by decide +kernel⟩, trivial⟩
  · decide +kernel

/-- The last certificate of the first round comes after one that waits for it. -/
def lateParent : List Event :=
  [.certificateMessage (votedCertificate 1 0 [] []),
    .certificateMessage (votedCertificate 2 0 [] []),
    .certificateMessage (votedCertificate 1 1 [] (votedRound 0)),
    .certificateMessage (votedCertificate 3 0 [] [])]

theorem dag_causally_complete_late_parent :
    ∃ (l : IdealNode) (log : List Output),
      Looseberry.Reach (fun _ => True) Looseberry.Waits l log ∧
      l.dag.slot 1 1 = some (votedCertificate 1 1 [] (votedRound 0)) ∧
      ∃ r a c, l.dag.slot r a = some c ∧ c.digest = (votedCertificate 3 0 [] []).digest := by
  have hrun : Looseberry.Reach (fun _ => True) Looseberry.Waits _ _ :=
    reach_idealExec 0 10 lateParent trivial
      ⟨(by decide +kernel : Looseberry.Deliverable _ _),
        (by decide +kernel : Looseberry.Deliverable _ _),
        (by decide +kernel : Looseberry.Deliverable _ _),
        (by decide +kernel : Looseberry.Deliverable _ _), trivial⟩
  have hslot : (idealExec 0 10 lateParent).1.dag.slot 1 1 =
      some (votedCertificate 1 1 [] (votedRound 0)) := by decide +kernel
  have href : (votedCertificate 3 0 [] []).getRef ∈
      (votedCertificate 1 1 [] (votedRound 0)).header.parents := by decide +kernel
  exact ⟨_, _, hrun, hslot,
    Looseberry.dag_causally_complete hrun hslot (by decide +kernel) href⟩

end

end DagMempool
