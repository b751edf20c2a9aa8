import DagMempool.Node.Ideal
import DagMempool.Proofs.NodeFrame

/-!
# Which certificates are in the DAG

Certificates enter the DAG on four paths. Those the node forms verify, because the
tracker holds headers the node has signed and votes whose signatures were checked,
one for each validator. Those of a sync response are verified first. A peer's
certificate is verified by `HandleCertificate`, whose answer nobody reads: it goes
to the DAG, or to the orphans and from there to the DAG, whatever the answer was.

So all certificates in the DAG verify as long as those of peers do, or are turned
away for another reason: their slot is taken, or they lack parents and the buffer
of orphans does not take them either.
-/

namespace DagMempool

section

variable [Crypto]

/-- Everything in the rounds and in the index of a DAG verifies. -/
structure Dag.AllVerified (vs : SimpleValidatorSet) (d : Dag) : Prop where
  slot : ∀ r a c, d.slot r a = some c → c.Verified vs
  index : ∀ digest c, d.certIndex.get digest = some c → c.Verified vs

namespace Dag.AllVerified

variable {vs : SimpleValidatorSet} {d : Dag}

theorem addCertificate {CS : Type} [CertificateStore CS] (h : d.AllVerified vs)
    {cert : Certificate} (hcert : cert.Verified vs) (certStore : CS) :
    (d.addCertificate certStore cert).2.1.AllVerified vs := by
  refine ⟨fun r a c hc => ?_, fun digest c hc => ?_⟩
  · rcases slot_addCertificate hc with hold | ⟨rfl, -⟩
    · exact h.slot r a c hold
    · exact hcert
  · rcases certIndex_addCertificate hc with hold | ⟨rfl, -⟩
    · exact h.index digest c hold
    · exact hcert

theorem setCommittedRound (h : d.AllVerified vs) (round : UInt64) :
    (d.setCommittedRound round).AllVerified vs :=
  ⟨fun r a c hc => h.slot r a c (by rw [← slot_setCommittedRound d round]; exact hc), h.index⟩

theorem pruneRoundsBefore (h : d.AllVerified vs) (round : UInt64) :
    (d.pruneRoundsBefore round).AllVerified vs := by
  refine ⟨fun r a c hc => ?_, fun digest c hc => ?_⟩
  · rw [slot_pruneRoundsBefore] at hc
    split at hc
    · cases hc
    · exact h.slot r a c hc
  · exact h.index digest c (certIndex_pruneRoundsBefore hc)

end Dag.AllVerified

/-! ## The tracker

A header is tracked when the node has signed it, and a vote is counted when its signature was
checked. Both are of the set the primary has. -/

/-- A header that is tracked is the node's own, and its votes count. -/
structure PendingHeader.Sound (vs : SimpleValidatorSet) (d : Hash) (ph : PendingHeader) :
    Prop where
  digest : ph.header.digest = d
  author : vs.verifySignature ph.header.author d ph.header.signature = true
  votes : ∀ i vote, ph.votes.get i = some vote → Certificate.VoteOk vs d vote

variable {k : Formed} {vote : Vote}

namespace PendingHeader.Sound

variable {vs : SimpleValidatorSet} {d : Hash} {ph : PendingHeader}

theorem addVote (h : ph.Sound vs d) (hvote : Certificate.VoteOk vs d vote) :
    { ph with votes := ph.votes.set vote.validator vote }.Sound vs d := by
  refine ⟨h.digest, h.author, fun i v hv => ?_⟩
  rcases GoMap.get_set_eq_some hv with ⟨-, rfl⟩ | ⟨-, hold⟩
  · exact hvote
  · exact h.votes i v hold

theorem verified [SliceSort] (h : ph.Sound vs d) (hquorum : vs.quorum ≤ ph.votes.len)
    (order : IterOrder Vote) :
    (VoteTracker.formCertificate ph vs.quorum order).Verified vs := by
  have hdigest : (VoteTracker.formCertificate ph vs.quorum order).digest = d := h.digest
  refine ⟨VoteTracker.length_votes_formCertificate order hquorum, ?_, fun vote hvote => ?_⟩
  · rw [hdigest]
    exact h.author
  · obtain ⟨i, hi⟩ := VoteTracker.mem_votes_formCertificate hvote
    rw [hdigest]
    exact h.votes i vote hi

end PendingHeader.Sound

structure Primary.Sound (vs : SimpleValidatorSet) (p : Primary) : Prop where
  validatorSet : p.validatorSet = vs
  member : ∃ v, vs.getByIndex p.validatorID = some v ∧ v.publicKey = p.signer.publicKey
  tracked : ∀ d ph, p.voteTracker.pending.get d = some ph → ph.Sound vs d
  buffered : ∀ d entry, p.pendingVotes.get d = some entry →
    ∀ vote ∈ entry.votes, Certificate.VoteOk vs d vote

namespace Primary.Sound

variable {vs : SimpleValidatorSet} {p : Primary}

theorem signed (h : p.Sound vs) {d : Hash} {sig : Signature}
    (hsig : p.signer.sign d = .ok sig) : vs.verifySignature p.validatorID d sig = true := by
  obtain ⟨v, hv, hkey⟩ := h.member
  rw [SimpleValidatorSet.verifySignature_eq_true]
  exact ⟨v, hv, hkey ▸ p.signer.verify_sign hsig⟩

theorem recorded (h : p.Sound vs) (hvote : Certificate.VoteOk vs vote.headerDigest vote)
    {vt : VoteTracker} (hvt : p.voteTracker.Recorded vote vt) :
    { p with voteTracker := vt }.Sound vs :=
  ⟨h.validatorSet, h.member,
    hvt.forall_pending (fun _ hph => hph.addVote hvote) h.tracked, h.buffered⟩

theorem bufferVote (h : p.Sound vs) (hvote : Certificate.VoteOk vs vote.headerDigest vote)
    (now : Int) : (p.bufferVote vote now).Sound vs := by
  refine ⟨h.validatorSet, h.member, h.tracked, fun d entry hentry v hv => ?_⟩
  rcases Primary.mem_bufferVote hentry hv with ⟨entry', hold, hv'⟩ | ⟨rfl, rfl⟩
  · exact h.buffered d entry' hold v hv'
  · exact hvote

theorem trackHeader (h : p.Sound vs) {header : Header} {now : Int}
    (hauthor : vs.verifySignature header.author header.digest header.signature = true) :
    { p with voteTracker := p.voteTracker.trackHeader header now }.Sound vs := by
  refine ⟨h.validatorSet, h.member, fun d ph hph => ?_, h.buffered⟩
  rcases VoteTracker.get_trackHeader hph with hold | ⟨rfl, rfl⟩
  · exact h.tracked d ph hold
  · refine ⟨rfl, hauthor, fun i vote hvote => ?_⟩
    cases hvote

theorem removeHeader (h : p.Sound vs) (d : Hash) :
    { p with voteTracker := p.voteTracker.removeHeader d }.Sound vs :=
  ⟨h.validatorSet, h.member, fun d ph hph => h.tracked d ph (VoteTracker.get_removeHeader hph),
    h.buffered⟩

theorem cleanupPendingVotes (h : p.Sound vs) (now : Int) :
    (p.cleanupPendingVotes now).Sound vs :=
  ⟨h.validatorSet, h.member,
    fun d ph hph => h.tracked d ph (VoteTracker.get_removeTimedOut hph),
    fun d entry hentry => h.buffered d entry (GoMap.get_filter_eq_some.mp hentry).1⟩

variable {CS : Type} [CertificateStore CS]

theorem handleCertificate (h : p.Sound vs) (certStore : CS) (cert : Certificate) :
    (p.handleCertificate certStore cert).2.1.Sound vs := by
  obtain ⟨⟨currentRound, heq⟩, -⟩ := p.handleCertificate_eq certStore cert
  rw [heq]
  exact ⟨h.validatorSet, h.member, h.tracked, h.buffered⟩

end Primary.Sound

/-! ## Certificates the node forms

A certificate is formed with a quorum of votes counted, so `Verify` would accept it. -/

section

open Looseberry

variable {vs : SimpleValidatorSet} {CS : Type} [CertificateStore CS] [SliceSort]

/-- A sound primary whose certificates go to a DAG in which all verify. -/
def Formed.Sound (vs : SimpleValidatorSet) (p : Primary) (_ : CS) (k : Formed) : Prop :=
  p.Sound vs ∧ k.dag.AllVerified vs

variable {certStore : CS}

theorem recordVote_sound {p : Primary} (h : Formed.Sound vs p certStore k)
    (hvote : Certificate.VoteOk vs vote.headerDigest vote) (order : IterOrder Vote) (now : Int) :
    Primary.Leaves (Formed.Sound vs)
      (p.recordVote certStore onCertificateFormed k vote order now).2 := by
  obtain ⟨vt, hvt, heq | ⟨ph, hph, hquorum, heq⟩⟩ :=
    p.recordVote_cases certStore onCertificateFormed k vote order now
  · rw [heq]
    exact ⟨h.1.recorded hvote hvt, h.2⟩
  · rw [heq]
    have hp := h.1.recorded hvote hvt
    refine ⟨hp.removeHeader _, h.2.addCertificate ?_ _⟩
    rw [h.1.validatorSet] at hquorum ⊢
    exact (hp.tracked _ ph hph).verified hquorum order

theorem keeps_sound (order : IterOrder Vote) (now : Int) (digest : Hash) :
    Primary.Keeps (Formed.Sound vs) (fun vote => Certificate.VoteOk vs vote.headerDigest vote)
      (onCertificateFormed : CertSink Formed CS) order now digest where
  record hI hV := recordVote_sound hI hV order now
  round _ hI := ⟨⟨hI.1.validatorSet, hI.1.member, hI.1.tracked, hI.1.buffered⟩, hI.2⟩
  buffered hI hentry vote hmem := by
    have hvote := hI.1.buffered digest _ hentry vote hmem
    exact hvote.headerDigest.symm ▸ hvote
  unbuffer hI :=
    ⟨⟨hI.1.validatorSet, hI.1.member, hI.1.tracked, fun d entry hentry =>
      hI.1.buffered d entry (GoMap.get_del_eq_some.mp hentry).2⟩, hI.2⟩

theorem handleVote_sound {p : Primary} (h : Formed.Sound vs p certStore k) (vote : Vote)
    (order : IterOrder Vote) (now : Int) :
    Primary.Leaves (Formed.Sound vs)
      (p.handleVote certStore onCertificateFormed k vote order now).2 := by
  refine Primary.handleVote_leaves h fun hsig => ?_
  rw [h.1.validatorSet] at hsig
  have hvote : Certificate.VoteOk vs vote.headerDigest vote := ⟨rfl, hsig⟩
  exact ⟨⟨h.1.bufferVote hvote now, h.2⟩, recordVote_sound h hvote order now⟩

theorem buildHeader_signed {p : Primary} (h : p.Sound vs) {digests : List BatchDigest} {now : Int}
    {header : Header} (hb : p.buildHeader certStore digests now = some header) :
    vs.verifySignature header.author header.digest header.signature = true := by
  obtain ⟨sig, hsig, rfl⟩ := Primary.buildHeader_eq_some hb
  exact h.signed hsig

theorem tryCreateHeader_sound {p : Primary} (h : Formed.Sound vs p certStore k)
    (hasAckQuorum : Hash → Bool) (order : IterOrder Vote) (now : Int) :
    Primary.Leaves (Formed.Sound vs)
      (p.tryCreateHeader certStore onCertificateFormed k hasAckQuorum order now).2 := by
  have hqueue : ∀ rest, Primary.Sound vs { p with batchDigests := rest } := fun rest =>
    ⟨h.1.validatorSet, h.1.member, h.1.tracked, h.1.buffered⟩
  refine Primary.tryCreateHeader_survives (J := fun _ => Formed.Sound vs)
    (V := fun _ vote => Certificate.VoteOk vs vote.headerDigest vote) hasAckQuorum
    (fun rest => ⟨hqueue rest, h.2⟩) ?_
    (fun header => (keeps_sound order now header.digest).survives) (fun _ _ _ _ hJ => hJ)
  intro rest digests header _ hb
  refine ⟨⟨(hqueue rest).trackHeader (buildHeader_signed (hqueue rest) hb), h.2⟩, ?_⟩
  intro vote hvote
  obtain ⟨sig, hsig, rfl⟩ := Vote.sign_eq_ok hvote
  exact ⟨rfl, h.1.signed hsig⟩

end

/-! ## The node

The orphans are part of the invariant: what waits there goes to the DAG unchecked later. -/

namespace Looseberry

variable {BS CS TI : Type} [CertificateStore CS] {vs : SimpleValidatorSet}

/-- What a node with a fixed validator set keeps if peers send certificates that
verify. -/
structure VerifiedOnly (vs : SimpleValidatorSet) (l : Looseberry BS CS TI) : Prop where
  primary : l.primary.Sound vs
  sync : l.sync.validatorSet = vs
  dag : l.dag.AllVerified vs
  orphans : ∀ d c, l.orphanCerts.get d = some c → c.Verified vs

/-- The DAG does not admit the certificate, and the orphans do not take it. -/
def TurnsAway (l : Looseberry BS CS TI) (cert : Certificate) : Prop :=
  l.dag.slot cert.round cert.author ≠ none ∨
    (0 < cert.round ∧
      (∃ ref ∈ cert.header.parents, l.dag.hasCertificate l.certStore ref.digest = false) ∧
      (orphanCertCap ≤ l.orphanCerts.len ∨ l.orphanCerts.has cert.digest = true))

omit [CertificateStore CS] in
theorem VerifiedOnly.alike {l l' : Looseberry BS CS TI} (h : l.VerifiedOnly vs)
    (hlike : l.Alike l') : l'.VerifiedOnly vs := by
  obtain ⟨-, -, ⟨batchDigests, hprimary⟩, hvs, hdag, -, horphans⟩ := hlike
  refine ⟨?_, by rw [hvs, h.sync], by rw [hdag]; exact h.dag,
    by rw [horphans]; exact h.orphans⟩
  rw [hprimary]
  exact ⟨h.primary.validatorSet, h.primary.member, h.primary.tracked, h.primary.buffered⟩

variable {l : Looseberry BS CS TI} {cert : Certificate}

theorem replayOne_verifiedOnly {acc : Looseberry BS CS TI × Nat} (h : acc.1.VerifiedOnly vs)
    (hcert : cert.Verified vs) : (replayOne acc cert).1.VerifiedOnly vs := by
  have hdag := h.dag.addCertificate hcert acc.1.certStore
  unfold replayOne
  dsimp only
  split
  · exact ⟨h.primary, h.sync, hdag, h.orphans⟩
  · exact ⟨h.primary, h.sync, hdag, fun d c hc => h.orphans d c (GoMap.get_del_eq_some.mp hc).2⟩

omit [CertificateStore CS] in
theorem bufferOrphanCert_verifiedOnly (h : l.VerifiedOnly vs) (hcert : cert.Verified vs) :
    (l.bufferOrphanCert cert).VerifiedOnly vs := by
  rcases l.bufferOrphanCert_cases cert with heq | ⟨-, heq⟩
  · rw [heq]
    exact h
  · rw [heq]
    refine ⟨h.primary, h.sync, h.dag, fun d c hc => ?_⟩
    rcases GoMap.get_set_eq_some hc with ⟨-, rfl⟩ | ⟨-, hold⟩
    · exact hcert
    · exact h.orphans d c hold

theorem replayOrphanCerts_verifiedOnly (h : l.VerifiedOnly vs)
    (order : Nat → IterOrder Certificate) (fuel : Nat) :
    (replayOrphanCerts order fuel l).VerifiedOnly vs := by
  refine ReplayRule.keeps (Q := fun _ cert => cert.Verified vs)
    ⟨fun _ _ hacc hcert => replayOne_verifiedOnly hacc hcert, fun _ _ _ _ _ hcert => hcert,
      fun l cert hl hmem => ?_⟩ order fuel h
  obtain ⟨d, hd⟩ := GoMap.mem_values.mp hmem
  exact hl.orphans d cert hd

theorem handleCertificateMessage_verifiedOnly (h : l.VerifiedOnly vs) (hcert : cert.Verified vs)
    (env : Env) : (l.handleCertificateMessage env cert).VerifiedOnly vs := by
  have hadmit : (l.admitCertificate cert).2.VerifiedOnly vs :=
    ⟨h.primary.handleCertificate _ _, h.sync, h.dag.addCertificate hcert _, h.orphans⟩
  have hsettled : ∀ answer,
      ((l.admitCertificate cert).2.settleOrphans env cert answer).VerifiedOnly vs := by
    intro answer
    unfold settleOrphans
    split
    · exact bufferOrphanCert_verifiedOnly hadmit hcert
    · exact hadmit
    · exact replayOrphanCerts_verifiedOnly hadmit _ _
  obtain ⟨hprimary, hsync, hdag, horphans⟩ := hsettled (l.admitCertificate cert).1
  exact ⟨hprimary, hsync, hdag, horphans⟩

theorem handleCertificate_of_not_verified {p : Primary} (hp : p.Sound vs) (certStore : CS)
    (hcert : ¬ cert.Verified vs) : (p.handleCertificate certStore cert).2 = (p, certStore) := by
  refine p.handleCertificate_of_invalid certStore fun hvalid => hcert ?_
  rw [hp.validatorSet] at hvalid
  exact Certificate.verify_eq_ok.mp hvalid

theorem handleCertificateMessage_turnedAway (h : l.VerifiedOnly vs) (hcert : ¬ cert.Verified vs)
    (haway : l.TurnsAway cert) (env : Env) :
    (l.handleCertificateMessage env cert).VerifiedOnly vs := by
  have hhandled := handleCertificate_of_not_verified h.primary l.certStore hcert
  have hadmit : ∃ err, l.admitCertificate cert =
      (.error err, { l with dag := l.dag.ensureRound cert.round }) ∧
      (err = .missingParents →
        orphanCertCap ≤ l.orphanCerts.len ∨ l.orphanCerts.has cert.digest = true) := by
    unfold admitCertificate
    dsimp only
    rw [hhandled]
    rcases l.dag.addCertificate_cases l.certStore cert with
      ⟨err, heq, ⟨rfl, -⟩ | ⟨rfl, hfree, -⟩⟩ | ⟨hadm, -⟩
    · exact ⟨_, by rw [heq], fun hbad => absurd hbad (by simp)⟩
    · refine ⟨_, by rw [heq], fun _ => ?_⟩
      rcases haway with htaken | ⟨-, -, hfull⟩
      · exact absurd hfree htaken
      · exact hfull
    · rcases haway with htaken | ⟨hpos, ⟨ref, href, hmissing⟩, -⟩
      · exact absurd hadm.free htaken
      · exact absurd (hadm.parents hpos ref href) (by simp [hmissing])
  obtain ⟨err, heq, hbuffer⟩ := hadmit
  have hdag : (l.dag.ensureRound cert.round).AllVerified vs :=
    ⟨fun r a c hc => h.dag.slot r a c (by rw [← Dag.slot_ensureRound l.dag]; exact hc),
      fun d c hc => h.dag.index d c (by rw [← Dag.certIndex_ensureRound l.dag]; exact hc)⟩
  have hsettled : settleOrphans { l with dag := l.dag.ensureRound cert.round } env cert
      (.error err) = { l with dag := l.dag.ensureRound cert.round } := by
    unfold settleOrphans
    split
    · next herr =>
        cases herr
        unfold bufferOrphanCert
        rcases hbuffer rfl with hfull | hhas
        · rw [if_pos hfull]
        · rw [if_pos hhas, ite_self]
    · rfl
    · next herr => cases herr
  rw [handleCertificateMessage, heq]
  rw [hsettled]
  exact ⟨h.primary, h.sync, hdag, h.orphans⟩

theorem handleSyncResponse_verifiedOnly [BatchStore BS] (h : l.VerifiedOnly vs) (env : Env)
    (resp : SyncResponse) (sender : UInt16) :
    (l.handleSyncResponse env resp sender).VerifiedOnly vs := by
  have hdelivered : ∀ cert ∈ (l.sync.handleSyncResponse l.batchStore resp sender).1,
      cert.Verified vs := by
    intro cert hcert
    have hverify := (SyncManager.verify_of_delivered hcert).2
    rw [h.sync] at hverify
    exact Certificate.verify_eq_ok.mp hverify
  refine List.foldlRecOn _ _ ?_ fun m hm cert hcert =>
    handleCertificateMessage_verifiedOnly hm (hdelivered cert hcert) env
  refine ⟨h.primary, ?_, h.dag, h.orphans⟩
  rw [takeSyncResponse, SyncManager.handleSyncResponse_validatorSet, h.sync]

theorem gcTick_verifiedOnly [BatchStore BS] [TxIndex TI] (h : l.VerifiedOnly vs) (env : Env) :
    (l.gcTick env).1.VerifiedOnly vs := by
  refine ⟨h.primary, h.sync, ?_, h.orphans⟩
  show (l.gc.collect l.gcTargets env.gc l.txRecovery).2.2.dag.AllVerified vs
  rcases l.gc.collect_dag l.gcTargets env.gc l.txRecovery with ⟨-, hgc⟩ | ⟨-, hgc, -⟩
  · rw [hgc]
    exact h.dag
  · rw [hgc]
    exact h.dag.pruneRoundsBefore _

omit [CertificateStore CS] in
theorem markCommitted_verifiedOnly (h : l.VerifiedOnly vs) (round : UInt64) :
    (l.markCommitted round).VerifiedOnly vs := by
  refine ⟨h.primary, h.sync, ?_, h.orphans⟩
  have hdag := h.dag.setCommittedRound round
  rcases l.markCommitted_dag round with heq | heq
  · rw [heq]
    exact hdag
  · rw [heq]
    exact hdag.setCommittedRound round

variable [SliceSort] [BatchStore BS] [TxIndex TI]

/-- The node is a validator of the set: its index has its key. -/
def Member (vs : SimpleValidatorSet) (l : Looseberry BS CS TI) : Prop :=
  l.validatorSet = vs ∧
    ∃ v, vs.getByIndex l.cfg.validatorIndex = some v ∧ v.publicKey = l.cfg.signer.publicKey

/-- The validator set stays, and a peer's certificate verifies or is turned away. -/
def CertificatesVerify (vs : SimpleValidatorSet) (l : Looseberry BS CS TI)
    (_ : List Output) (ev : Event × Env) : Prop :=
  match ev.1 with
  | .updateValidatorSet _ => False
  | .certificateMessage cert => cert.verify vs = .ok () ∨ l.TurnsAway cert
  | _ => True

omit [CertificateStore CS] [SliceSort] [BatchStore BS] [TxIndex TI] in
theorem started_verifiedOnly (h : l.Started) (hvs : l.Member vs) : l.VerifiedOnly vs := by
  obtain ⟨cfg, vs', batchStore, certStore, txIndex, now, rfl⟩ := h
  obtain ⟨rfl, hmember⟩ := hvs
  refine ⟨⟨rfl, hmember, fun d ph hph => ?_, fun d entry hentry => ?_⟩, rfl,
    ⟨fun r a c hc => ?_, fun d c hc => ?_⟩, fun d c hc => ?_⟩
  · exact absurd hph (by simp [start, Primary.new, VoteTracker.new])
  · exact absurd hentry (by simp [start, Primary.new])
  · exact absurd hc (by simp [start])
  · exact absurd hc (by simp [start, Dag.new])
  · exact absurd hc (by simp [start])

theorem step_verifiedOnly {log : List Output} {ev : Event × Env} (h : l.VerifiedOnly vs)
    (hok : l.CertificatesVerify vs log ev) : (l.step ev).1.VerifiedOnly vs := by
  obtain ⟨ev, env⟩ := ev
  cases hev : ev with
  | updateValidatorSet vs' =>
    subst hev
    exact absurd hok (by simp [CertificatesVerify])
  | certificateMessage cert =>
    subst hev
    by_cases hcert : cert.Verified vs
    · exact handleCertificateMessage_verifiedOnly h hcert env
    · rcases hok with hverify | haway
      · exact absurd (Certificate.verify_eq_ok.mp hverify) hcert
      · exact handleCertificateMessage_turnedAway h hcert haway env
  | syncResponse resp sender => exact handleSyncResponse_verifiedOnly h env resp sender
  | voteMessage vote =>
    have hformed : Formed.Sound vs l.primary l.certStore
        { dag := l.dag, flow := l.flow, certs := [] } := ⟨h.primary, h.dag⟩
    obtain ⟨hprimary, hdag⟩ := handleVote_sound hformed vote env.votes env.now
    exact ⟨hprimary, h.sync, hdag, h.orphans⟩
  | headerTick =>
    have hformed : Formed.Sound vs l.primary l.certStore
        { dag := l.dag, flow := l.flow, certs := [] } := ⟨h.primary, h.dag⟩
    obtain ⟨hprimary, hdag⟩ := tryCreateHeader_sound hformed l.pool.hasBatchAckQuorum
      env.votes env.now
    exact ⟨hprimary, h.sync, hdag, h.orphans⟩
  | gcTick => exact gcTick_verifiedOnly h env
  | notifyCommitted round =>
    obtain ⟨_, _, heq⟩ := l.notifyCommitted_eq env round
    obtain ⟨hprimary, hsync, hdag, horphans⟩ :=
      gcTick_verifiedOnly (markCommitted_verifiedOnly h round) env
    show (l.notifyCommitted env round).1.VerifiedOnly vs
    rw [heq]
    exact ⟨hprimary, hsync, hdag, horphans⟩
  | voteCleanupTick =>
    exact ⟨h.primary.cleanupPendingVotes env.now, h.sync, h.dag, h.orphans⟩
  | _ => exact h.alike (l.step_alike _ (by subst hev; rfl))

/-- A node that is a validator of the set, and whose peers send it certificates that
verify or that it turns away, has only certificates that verify in its DAG. -/
theorem dag_certificates_verify {l : Looseberry BS CS TI} {log : List Output}
    (h : Reach (Member vs) (CertificatesVerify vs) l log) :
    (∀ r a c, l.dag.slot r a = some c → c.verify vs = .ok ()) ∧
      ∀ d c, l.dag.certIndex.get d = some c → c.verify vs = .ok () := by
  have hl : l.VerifiedOnly vs := Run.Reach.invariant
    (fun _ h0 => started_verifiedOnly h0.1 h0.2) (fun _ _ _ => step_verifiedOnly) h
  exact ⟨fun r a c hc => Certificate.verify_eq_ok.mpr (hl.dag.slot r a c hc),
    fun d c hc => Certificate.verify_eq_ok.mpr (hl.dag.index d c hc)⟩

end Looseberry

end

section

open IdealScheme

/-- Round `0`, no votes, and not even signed by its author. -/
def unvotedCertificate : Certificate :=
  .new { idealHeader 1 0 [] [] 0 with signature := 0 } []

theorem unvoted_certificate_enters_dag :
    ∃ (l : IdealNode) (log : List Output),
      Looseberry.Reach (Looseberry.Member (idealValidators 4 0))
        (fun _ _ ev => ∀ vs, ev.1 ≠ .updateValidatorSet vs) l log ∧
      l.dag.slot 0 1 = some unvotedCertificate ∧
      l.dag.certIndex.get unvotedCertificate.digest = some unvotedCertificate ∧
      unvotedCertificate.verify (idealValidators 4 0) = .error .insufficientQuorum := by
  refine ⟨_, _, reach_idealExec 0 10 [.certificateMessage unvotedCertificate] ?_ ?_, ?_⟩
  · exact ⟨rfl, _, rfl, rfl⟩
  · exact ⟨fun vs h => absurd h (by simp), trivial⟩
  · decide +kernel

/-- The header node `0` makes in its first step, and one of node `1` with its votes. -/
def firstHeader : Header := idealHeader 0 0 [] [] 1

def peerCertificate : Certificate := idealCertificate (idealHeader 1 0 [] [] 0) [1, 2, 3]

/-- Node `0` has its header certified and receives the certificate of node `1`, and
then one without votes for the same slot. -/
def certifiedRound : List Event :=
  [.headerTick, .voteMessage (idealVote firstHeader.digest 1),
    .voteMessage (idealVote firstHeader.digest 2), .certificateMessage peerCertificate,
    .certificateMessage unvotedCertificate]

theorem dag_certificates_verify_certified_round :
    ∃ (l : IdealNode) (log : List Output),
      Looseberry.Reach (Looseberry.Member (idealValidators 4 0))
        (Looseberry.CertificatesVerify (idealValidators 4 0)) l log ∧
      (l.dag.slot 0 0 = some (idealCertificate firstHeader [0, 1, 2]) ∧
        (idealCertificate firstHeader [0, 1, 2]).verify (idealValidators 4 0) = .ok ()) ∧
      l.dag.certIndex.get peerCertificate.digest = some peerCertificate ∧
        peerCertificate.verify (idealValidators 4 0) = .ok () := by
  have hrun : Looseberry.Reach (Looseberry.Member (idealValidators 4 0))
      (Looseberry.CertificatesVerify (idealValidators 4 0)) _ _ :=
    reach_idealExec 0 10 certifiedRound ⟨rfl, _, rfl, rfl⟩
      ⟨trivial, trivial, trivial, .inl (by decide +kernel), .inr (.inl (by decide +kernel)),
        trivial⟩
  have hown : (idealExec 0 10 certifiedRound).1.dag.slot 0 0 =
      some (idealCertificate firstHeader [0, 1, 2]) := by decide +kernel
  have hpeer : (idealExec 0 10 certifiedRound).1.dag.certIndex.get peerCertificate.digest =
      some peerCertificate := by decide +kernel
  have h := Looseberry.dag_certificates_verify hrun
  exact ⟨_, _, hrun, ⟨hown, h.1 _ _ _ hown⟩, hpeer, h.2 _ _ hpeer⟩

end

end DagMempool
