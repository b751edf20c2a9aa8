import DagMempool.Primary.Ideal
import DagMempool.Proofs.VoteCounting

/-!
# What becomes of a batch digest

A digest that is given to the primary waits in its queue, goes into a header, and
reaches the DAG with the certificate of that header. Nothing else holds on to it: what
is ready leaves the queue before the header is signed, a header that is not tracked or
that times out takes its digests with it, and so does one whose certificate the DAG
does not admit, because the callback drops the error and the header is not tracked any
more.

Where none of that happens, the queue, the headers that are tracked and the
certificates in the DAG have together exactly the digests that were given.
-/

namespace DagMempool

/-! ## Places

The batches of the DAG and of the tracked headers as multisets: what one more certificate, or one
header less, does to them. -/

namespace Dag

/-- The batches the certificates in memory refer to. -/
def batchRefs (d : Dag) : List BatchDigest :=
  d.certificates.flatMap fun c => c.header.batchRefs

/-- A certificate of this header would be admitted. -/
@[mk_iff] structure AdmitsHeader {CS : Type} [CertificateStore CS] (d : Dag) (certStore : CS)
    (header : Header) : Prop where
  free : d.slot header.round header.author = none
  parents : 0 < header.round →
    ∀ ref ∈ header.parents, d.hasCertificate certStore ref.digest = true

instance {CS : Type} [CertificateStore CS] (d : Dag) (certStore : CS) (header : Header) :
    Decidable (d.AdmitsHeader certStore header) :=
  decidable_of_iff' _ (admitsHeader_iff d certStore header)

theorem certificates_ensureRound (d : Dag) (round : UInt64) :
    (d.ensureRound round).certificates = d.certificates := by
  unfold ensureRound
  split
  · rfl
  · next hnone =>
      show (d.rounds.set round (.new round)).values.flatMap _ = _
      rw [GoMap.values_set, GoMap.del_of_get_none hnone, List.flatMap_cons]
      rfl

theorem certificates_insertCertificate {d : Dag} {c : Certificate}
    (hfree : d.slot c.round c.author = none) :
    (d.insertCertificate c).certificates.Perm (c :: d.certificates) := by
  have hrounds : (d.insertCertificate c).certificates =
      (d.rounds.set c.round
        (((d.rounds.get c.round).getD (.new c.round)).addCertificate c)).values.flatMap
          fun rd => rd.certificates.values := rfl
  rw [hrounds, GoMap.values_set, List.flatMap_cons]
  unfold slot at hfree
  cases hrd : d.rounds.get c.round with
  | none =>
    rw [GoMap.del_of_get_none hrd]
    exact .refl _
  | some rd =>
    rw [hrd] at hfree
    have hvalues : (rd.addCertificate c).certificates.values =
        c :: rd.certificates.values := by
      show (rd.certificates.set c.author c).values = _
      rw [GoMap.values_set, GoMap.del_of_get_none hfree]
    rw [Option.getD_some, hvalues, List.cons_append]
    refine List.Perm.cons c ?_
    have hperm := ((GoMap.values_perm hrd).flatMap_right fun rd => rd.certificates.values)
    exact hperm.symm

variable {CS : Type} [CertificateStore CS] {d : Dag} {certStore : CS} {c : Certificate}

theorem batchRefs_insertCertificate (hfree : d.slot c.round c.author = none) :
    ((d.ensureRound c.round).insertCertificate c).batchRefs.Perm
      (c.header.batchRefs ++ d.batchRefs) := by
  have hperm := certificates_insertCertificate
    ((slot_ensureRound d c.round c.round c.author).trans hfree)
  rw [certificates_ensureRound] at hperm
  have hrefs := hperm.flatMap_right fun c => c.header.batchRefs
  rwa [List.flatMap_cons] at hrefs

theorem batchRefs_addCertificate (h : d.AdmitsHeader certStore c.header) :
    (d.addCertificate certStore c).2.1.batchRefs.Perm (c.header.batchRefs ++ d.batchRefs) := by
  rcases d.addCertificate_cases certStore c with ⟨err, -, hwhy⟩ | ⟨hadm, heq⟩
  · have hadm : d.Admits certStore c := ⟨h.free, h.parents⟩
    exact absurd hwhy hadm.not_refused
  · rw [heq]
    exact batchRefs_insertCertificate hadm.free

theorem batchRefs_addCertificate_of_nil (h : c.header.batchRefs = []) :
    (d.addCertificate certStore c).2.1.batchRefs.Perm d.batchRefs := by
  rcases d.addCertificate_cases certStore c with ⟨err, heq, -⟩ | ⟨hadm, heq⟩
  · rw [heq, batchRefs, certificates_ensureRound]
    exact .refl _
  · rw [heq]
    have hperm := batchRefs_insertCertificate hadm.free
    rwa [h, List.nil_append] at hperm

end Dag

def headerRefs (pending : GoMap Hash PendingHeader) : List BatchDigest :=
  pending.values.flatMap fun ph => ph.header.batchRefs

section

variable {pending : GoMap Hash PendingHeader} {d : Hash} {ph : PendingHeader}

theorem headerRefs_perm (h : pending.get d = some ph) :
    (headerRefs pending).Perm (ph.header.batchRefs ++ headerRefs (pending.del d)) := by
  have hperm := (GoMap.values_perm h).flatMap_right fun ph => ph.header.batchRefs
  rwa [List.flatMap_cons] at hperm

theorem headerRefs_set (h : pending.get d = some ph) {ph' : PendingHeader}
    (hheader : ph'.header = ph.header) :
    (headerRefs (pending.set d ph')).Perm (headerRefs pending) := by
  rw [headerRefs, GoMap.values_set, List.flatMap_cons, hheader]
  exact (headerRefs_perm h).symm

theorem headerRefs_set_new (h : pending.get d = none) (ph : PendingHeader) :
    headerRefs (pending.set d ph) = ph.header.batchRefs ++ headerRefs pending := by
  rw [headerRefs, GoMap.values_set, GoMap.del_of_get_none h, List.flatMap_cons]
  rfl

theorem headerRefs_filter {f : Hash → PendingHeader → Bool}
    (h : ∀ d ph, pending.get d = some ph → f d ph = false → ph.header.batchRefs = []) :
    headerRefs (pending.filter f) = headerRefs pending := by
  have hlist : ∀ l : List (Σ _ : Hash, PendingHeader), (∀ e ∈ l, e ∈ pending.entries) →
      ((l.filter fun e => f e.1 e.2).flatMap fun e => e.2.header.batchRefs) =
        l.flatMap fun e => e.2.header.batchRefs := by
    intro l hl
    induction l with
    | nil => rfl
    | cons e l ih =>
      have hrest := ih fun e' he' => hl e' (List.mem_cons_of_mem _ he')
      rw [List.filter_cons]
      split
      · rw [List.flatMap_cons, List.flatMap_cons, hrest]
      · next hdrop =>
          have hnil := h e.1 e.2 (GoMap.get_eq_some.mpr (hl e List.mem_cons_self))
            (by simpa using hdrop)
          rw [List.flatMap_cons, hnil, hrest, List.nil_append]
  rw [headerRefs, headerRefs, GoMap.values, GoMap.values, List.flatMap_map, List.flatMap_map]
  exact hlist pending.entries fun _ he => he

end

theorem VoteTracker.Recorded.headerRefs {vt vt' : VoteTracker} {vote : Vote}
    (h : vt.Recorded vote vt') :
    (DagMempool.headerRefs vt'.pending).Perm (DagMempool.headerRefs vt.pending) := by
  rcases h with hsame | ⟨ph, hph, hset⟩
  · rw [hsame]
  · rw [hset]
    exact headerRefs_set hph rfl

/-! ## Votes

Recording a vote moves the digests of a header from the tracker to the DAG if it is the last one
needed, and leaves them where they are otherwise. -/

section

open Looseberry

variable [Crypto] {CS : Type} [CertificateStore CS]

/-- Where the digests are: in the queue, in tracked headers, in the DAG. -/
def Primary.places (p : Primary) (d : Dag) : List BatchDigest :=
  p.batchDigests ++ (headerRefs p.voteTracker.pending ++ d.batchRefs)

/-- While votes for one header are recorded, of these voters: nothing is lost so far,
and if they are a quorum, what the header needs to get into the DAG is there. -/
structure Conserved (given : List BatchDigest) (d : Hash) (voters : Finset UInt16)
    (p : Primary) (certStore : CS) (k : Formed × List Certificate) : Prop where
  perm : (p.places k.1.dag).Perm given
  opened : p.voteTracker.closed = false
  tracked : ∀ ph, p.voteTracker.pending.get d = some ph → ph.voters ⊆ voters ∧
    (ph.header.batchRefs ≠ [] → p.validatorSet.quorum ≤ voters.card →
      k.1.dag.AdmitsHeader certStore ph.header)
  keyed : ∀ d entry, p.pendingVotes.get d = some entry → ∀ vote ∈ entry.votes,
    vote.headerDigest = d

omit [Crypto] in
theorem Dag.AdmitsHeader.save [LawfulCertificateStore CS] {dag : Dag} {certStore : CS}
    {header : Header} (h : dag.AdmitsHeader certStore header) (c : Certificate) :
    dag.AdmitsHeader (CertificateStore.saveCertificate certStore c).2 header := by
  refine ⟨h.free, fun hpos ref href => ?_⟩
  have hhas := h.parents hpos ref href
  rw [Dag.hasCertificate, Bool.or_eq_true] at hhas ⊢
  exact hhas.imp_right fun hstored => KeepsCertificates.has_save c hstored

open scoped List in
omit [Crypto] in
theorem move_to_dag {pending : GoMap Hash PendingHeader} {d : Hash} {ph : PendingHeader}
    (hph : pending.get d = some ph) {dag : Dag} {certStore : CS} {c : Certificate}
    (hc : c.header = ph.header)
    (hadmits : c.header.batchRefs ≠ [] → dag.AdmitsHeader certStore c.header) :
    (headerRefs (pending.del d) ++ (dag.addCertificate certStore c).2.1.batchRefs).Perm
      (headerRefs pending ++ dag.batchRefs) := by
  have hout := headerRefs_perm hph
  rw [← hc] at hout
  by_cases hrefs : c.header.batchRefs = []
  · rw [hrefs, List.nil_append] at hout
    exact hout.symm.append (Dag.batchRefs_addCertificate_of_nil hrefs)
  · calc headerRefs (pending.del d) ++ (dag.addCertificate certStore c).2.1.batchRefs
      _ ~ headerRefs (pending.del d) ++ (c.header.batchRefs ++ dag.batchRefs) :=
          (Dag.batchRefs_addCertificate (hadmits hrefs)).append_left _
      _ ~ c.header.batchRefs ++ (headerRefs (pending.del d) ++ dag.batchRefs) :=
          List.perm_append_comm_assoc _ _ _
      _ = (c.header.batchRefs ++ headerRefs (pending.del d)) ++ dag.batchRefs :=
          (List.append_assoc _ _ _).symm
      _ ~ headerRefs pending ++ dag.batchRefs := hout.symm.append_right _

variable [SliceSort] {given : List BatchDigest} {d : Hash} {voters : Finset UInt16}

theorem Primary.recordVote_closed {κ : Type} (p : Primary) (certStore : CS)
    (sink : CertSink κ CS) (k : κ) (vote : Vote) (order : IterOrder Vote) (now : Int) :
    (p.recordVote certStore sink k vote order now).2.1.voteTracker.closed =
      p.voteTracker.closed := by
  have hclosed := p.voteTracker.recordVote_closed vote p.validatorSet.quorum order now
  unfold Primary.recordVote
  dsimp only
  split <;> exact hclosed

theorem Conserved.recordVote [LawfulCertificateStore CS] {p : Primary} {certStore : CS}
    {k : Formed × List Certificate} (h : Conserved given d voters p certStore k) {vote : Vote}
    (hdigest : vote.headerDigest = d) (hvoter : vote.validator ∈ voters)
    (order : IterOrder Vote) (now : Int) :
    Primary.Leaves (Conserved given d voters)
      (p.recordVote certStore (CertSink.logged onCertificateFormed) k vote order now).2 := by
  have hclosed := (p.recordVote_closed certStore (CertSink.logged onCertificateFormed) k vote
    order now).trans h.opened
  obtain ⟨vt, hvt, hcases⟩ :=
    p.recordVote_cases certStore (CertSink.logged onCertificateFormed) k vote order now
  have htracked := hvt.forall_pending
    (T := fun d' ph => d' = d → ph.voters ⊆ voters ∧ (ph.header.batchRefs ≠ [] →
      p.validatorSet.quorum ≤ voters.card → k.1.dag.AdmitsHeader certStore ph.header))
    (fun ph hph hd => ⟨by
      rw [PendingHeader.voters_set]
      exact Finset.insert_subset hvoter (hph hd).1, (hph hd).2⟩)
    (fun d' ph hph hd => h.tracked ph (hd ▸ hph))
  rcases hcases with heq | ⟨ph, hph, hquorum, heq⟩
  · rw [heq] at hclosed ⊢
    refine ⟨?_, hclosed, fun ph hph => htracked d ph hph rfl, h.keyed⟩
    exact ((hvt.headerRefs.append_right _).append_left _).trans h.perm
  · rw [heq] at hclosed ⊢
    subst hdigest
    obtain ⟨hsub, hadmits⟩ := htracked _ ph hph rfl
    have hcard : p.validatorSet.quorum ≤ voters.card := by
      rw [← PendingHeader.card_voters] at hquorum
      exact Nat.le_trans hquorum (Finset.card_le_card hsub)
    refine ⟨?_, hclosed, fun ph' hph' => ?_, h.keyed⟩
    · exact ((move_to_dag hph rfl fun hrefs => (hadmits hrefs hcard).save _).append_left
        _).trans (((hvt.headerRefs.append_right _).append_left _).trans h.perm)
    · exact absurd hph' (by
        show (vt.pending.del vote.headerDigest).get vote.headerDigest ≠ some ph'
        rw [GoMap.get_del, if_pos rfl]
        simp)

variable (CS) in
/-- Going through the votes that came early loses nothing, if they are of these voters
too. -/
theorem keeps_conserved [LawfulCertificateStore CS] (given : List BatchDigest) (d : Hash)
    (voters : Finset UInt16) (order : IterOrder Vote) (now : Int) :
    Primary.Keeps
      (fun p (certStore : CS) k => Conserved given d voters p certStore k ∧
        ∀ vote ∈ p.bufferedVotes d, vote.validator ∈ voters)
      (fun vote => vote.headerDigest = d ∧ vote.validator ∈ voters)
      (CertSink.logged onCertificateFormed) order now d where
  record {p certStore k vote} hI hV := by
    refine ⟨hI.1.recordVote hV.1 hV.2 order now, ?_⟩
    rw [Primary.bufferedVotes, Primary.recordVote_pendingVotes]
    exact hI.2
  round _ hI := ⟨⟨hI.1.perm, hI.1.opened, hI.1.tracked, hI.1.keyed⟩, hI.2⟩
  buffered {p certStore k entry} hI hentry vote hvote := by
    refine ⟨hI.1.keyed d entry hentry vote hvote, hI.2 vote ?_⟩
    rw [Primary.bufferedVotes, hentry]
    exact hvote
  unbuffer {p certStore k} hI := by
    refine ⟨⟨hI.1.perm, hI.1.opened, hI.1.tracked, fun d' entry hentry =>
      hI.1.keyed d' entry (GoMap.get_del_eq_some.mp hentry).2⟩, fun vote hvote => ?_⟩
    rw [Primary.bufferedVotes, GoMap.get_del, if_pos rfl] at hvote
    cases hvote

end

/-! ## The system

Each step gives a digest, moves some, or loses some; `Conserving` excludes the last. -/

namespace PrimarySystem

open Looseberry PrimaryMark

variable [Crypto] [SliceSort] {CS : Type} [CertificateStore CS]

/-- Nothing is lost in this step: a digest is given once; a header with batches is
signed, and it is new to the tracker; a header whose votes make a quorum would be
admitted to the DAG; and no header with batches times out. -/
def Conserving (s : PrimarySystem Formed CS) (log : List PrimaryMark) :
    PrimaryEvent × PrimaryEnv → Prop
  | (.addBatchDigest digest, _) => digest.digest ∉ (queuedDigests log).map (·.digest)
  | (.headerTick hasAckQuorum, env) =>
    ((Primary.splitReady hasAckQuorum s.primary.cfg.maxBatchesPerHeader []
        s.primary.batchDigests).1 ≠ [] →
      (s.primary.nextHeader s.certStore hasAckQuorum env.now).isSome = true) ∧
    ∀ header ∈ s.primary.nextHeader s.certStore hasAckQuorum env.now,
      s.primary.voteTracker.hasHeader header.digest = false ∧
      (header.batchRefs ≠ [] →
        s.primary.validatorSet.quorum ≤ (insert s.primary.validatorID
          ((s.primary.bufferedVotes header.digest).map (·.validator)).toFinset).card →
        s.sink.dag.AdmitsHeader s.certStore header)
  | (.vote vote, _) =>
    s.primary.validatorSet.verifySignature vote.validator vote.headerDigest
        vote.signature = true →
      ∀ ph ∈ s.primary.voteTracker.pending.get vote.headerDigest,
        ph.header.batchRefs ≠ [] →
        s.primary.validatorSet.quorum ≤ (insert vote.validator ph.voters).card →
        s.sink.dag.AdmitsHeader s.certStore ph.header
  | (.cleanup, env) =>
    ∀ header ∈ (s.primary.voteTracker.removeTimedOut env.now).1, header.batchRefs = []
  | (.restart, _) => False
  | _ => True

instance (s : PrimarySystem Formed CS) (log : List PrimaryMark) :
    ∀ ev, Decidable (Conserving s log ev)
  | (.addBatchDigest _, _) => inferInstanceAs (Decidable (_ ∉ _))
  | (.headerTick _, _) => inferInstanceAs (Decidable ((_ ≠ _ → _ = _) ∧ ∀ header ∈ _, _ = _ ∧
      (Header.batchRefs header ≠ [] → _ ≤ _ → Dag.AdmitsHeader _ _ _)))
  | (.vote _, _) => inferInstanceAs (Decidable (_ = _ → ∀ ph ∈ _,
      (PendingHeader.header ph).batchRefs ≠ [] → _ ≤ _ → Dag.AdmitsHeader _ _ _))
  | (.cleanup, _) => inferInstanceAs (Decidable (∀ header ∈ _, Header.batchRefs header = []))
  | (.restart, _) => .isFalse id
  | (.header _ _, _) | (.certificate _, _) | (.advanceRound, _) => .isTrue trivial

/-- The digests given are where they can be, each once. -/
structure Accounted (s : PrimarySystem Formed CS) (log : List PrimaryMark) : Prop where
  perm : (s.primary.places s.sink.dag).Perm (queuedDigests log)
  opened : s.primary.voteTracker.closed = false
  keyed : ∀ d entry, s.primary.pendingVotes.get d = some entry → ∀ vote ∈ entry.votes,
    vote.headerDigest = d
  distinct : ((queuedDigests log).map (·.digest)).Nodup

variable {s : PrimarySystem Formed CS} {log : List PrimaryMark}

omit [SliceSort] [CertificateStore CS] in
theorem Accounted.unmarked {s' : PrimarySystem Formed CS} {new : List PrimaryMark}
    (h : s.Accounted log) (hnew : queuedDigests new = [])
    (hperm : (s'.primary.places s'.sink.dag).Perm (queuedDigests log))
    (hopened : s'.primary.voteTracker.closed = false)
    (hkeyed : ∀ d entry, s'.primary.pendingVotes.get d = some entry → ∀ vote ∈ entry.votes,
      vote.headerDigest = d) : s'.Accounted (log ++ new) := by
  have hqueued : queuedDigests (log ++ new) = queuedDigests log := by
    rw [queuedDigests_append, hnew, List.append_nil]
  exact ⟨hqueued ▸ hperm, hopened, hkeyed, hqueued ▸ h.distinct⟩

omit [SliceSort] [CertificateStore CS] in
theorem Accounted.give (h : s.Accounted log) {digest : BatchDigest}
    (hnew : digest.digest ∉ (queuedDigests log).map (·.digest)) :
    Accounted { s with primary := s.primary.addBatchDigest digest }
      (log ++ [.queued digest]) := by
  have hqueued : queuedDigests (log ++ [.queued digest]) = queuedDigests log ++ [digest] :=
    queuedDigests_append _ _
  refine ⟨?_, h.opened, h.keyed, ?_⟩
  · rw [hqueued]
    show ((s.primary.batchDigests ++ [digest]) ++ _).Perm _
    rw [List.append_assoc, List.singleton_append]
    exact List.perm_middle.trans ((h.perm.cons digest).trans
      (List.perm_append_singleton digest _).symm)
  · rw [hqueued, List.map_append, List.map_singleton, List.nodup_append_comm,
      List.singleton_append, List.nodup_cons]
    exact ⟨hnew, h.distinct⟩

omit [SliceSort] in
theorem track_conserved (h : s.Accounted log) {digests rest : List BatchDigest}
    {header : Header} {hasAckQuorum : Hash → Bool} {voters : Finset UInt16}
    (hsplit : Primary.splitReady hasAckQuorum s.primary.cfg.maxBatchesPerHeader []
      s.primary.batchDigests = (digests, rest))
    (hrefs : header.batchRefs = digests)
    (hnew : s.primary.voteTracker.hasHeader header.digest = false)
    (hadmits : header.batchRefs ≠ [] → s.primary.validatorSet.quorum ≤ voters.card →
      s.sink.dag.AdmitsHeader s.certStore header) (now : Int) :
    Conserved (queuedDigests log) header.digest voters
      { s.primary with
        batchDigests := rest
        voteTracker := s.primary.voteTracker.trackHeader header now } s.certStore
      ((s.sink, []) : Formed × List Certificate) := by
  have hnone : s.primary.voteTracker.pending.get header.digest = none := by
    simpa [VoteTracker.hasHeader, GoMap.has] using hnew
  have hpending : s.primary.voteTracker.trackHeader header now =
      { s.primary.voteTracker with
        pending := s.primary.voteTracker.pending.set header.digest
          { header, votes := ∅, createdAt := now } } := by
    rw [VoteTracker.hasHeader] at hnew
    rw [VoteTracker.trackHeader, if_neg (by simp [h.opened]), if_neg (by simp [hnew])]
  have hqueue := Primary.splitReady_perm hasAckQuorum s.primary.cfg.maxBatchesPerHeader []
    s.primary.batchDigests
  rw [hsplit, List.nil_append] at hqueue
  refine ⟨?_, ?_, fun ph hph => ?_, h.keyed⟩
  · refine List.Perm.trans ?_ h.perm
    show (rest ++ (headerRefs (s.primary.voteTracker.trackHeader header now).pending ++
      s.sink.dag.batchRefs)).Perm _
    rw [hpending]
    rw [headerRefs_set_new hnone, hrefs, List.append_assoc, ← List.append_assoc]
    exact (List.perm_append_comm.trans hqueue).append_right _
  · rw [hpending]
    exact h.opened
  · rw [hpending, GoMap.get_set_self] at hph
    cases hph
    exact ⟨Finset.empty_subset _, hadmits⟩

omit [SliceSort] [CertificateStore CS] in
/-- A primary just started, with an empty DAG behind its callback. -/
def StartedEmpty (me : UInt16) (signer : Signer) (cfg : PrimaryConfig)
    (vs : SimpleValidatorSet) (dagCfg : DagConfig) (s : PrimarySystem Formed CS) : Prop :=
  Started me signer cfg vs s ∧ s.sink.dag = .new dagCfg

variable [LawfulCertificateStore CS]

theorem step_vote_accounted (h : s.Accounted log) (vote : Vote) (env : PrimaryEnv)
    (hok : Conserving s log (.vote vote, env)) :
    Accounted (step onCertificateFormed s (.vote vote, env)).1
      (log ++ (step onCertificateFormed s (.vote vote, env)).2) := by
  have hqueued : queuedDigests (step onCertificateFormed s (.vote vote, env)).2 = [] :=
    queuedDigests_certified _
  suffices hhandled : ∀ handled, handled = s.primary.handleVote s.certStore
      (CertSink.logged onCertificateFormed) (s.sink, []) vote env.votes env.now →
      (handled.2.1.places handled.2.2.2.1.dag).Perm (queuedDigests log) ∧
        handled.2.1.voteTracker.closed = false ∧
        ∀ d entry, handled.2.1.pendingVotes.get d = some entry → ∀ vote ∈ entry.votes,
          vote.headerDigest = d by
    obtain ⟨hperm, hopened, hkeyed⟩ := hhandled _ rfl
    exact h.unmarked hqueued hperm hopened hkeyed
  rintro handled rfl
  rcases s.primary.handleVote_cases s.certStore (CertSink.logged onCertificateFormed)
    (s.sink, []) vote env.votes env.now with heq | ⟨hvalid, ⟨-, heq⟩ | ⟨htracked, heq⟩⟩
  · rw [heq]
    exact ⟨h.perm, h.opened, h.keyed⟩
  · rw [heq]
    refine ⟨h.perm, h.opened, fun d entry hentry v hv => ?_⟩
    rcases Primary.mem_bufferVote hentry hv with ⟨entry', hold, hv'⟩ | ⟨rfl, rfl⟩
    · exact h.keyed d entry' hold v hv'
    · rfl
  · rw [heq]
    obtain ⟨ph, hph⟩ := GoMap.has_iff.mp htracked
    have hstart : Conserved (queuedDigests log) vote.headerDigest
        (insert vote.validator ph.voters) s.primary s.certStore (s.sink, []) := by
      refine ⟨h.perm, h.opened, fun ph' hph' => ?_, h.keyed⟩
      obtain rfl : ph = ph' := Option.some.inj (hph.symm.trans hph')
      exact ⟨Finset.subset_insert _ _, hok hvalid ph hph⟩
    have hdone := hstart.recordVote rfl (Finset.mem_insert_self _ _) env.votes env.now
    exact ⟨hdone.perm, hdone.opened, hdone.keyed⟩

theorem step_headerTick_accounted (h : s.Accounted log) (hasAckQuorum : Hash → Bool)
    (env : PrimaryEnv) (hok : Conserving s log (.headerTick hasAckQuorum, env)) :
    Accounted (step onCertificateFormed s (.headerTick hasAckQuorum, env)).1
      (log ++ (step onCertificateFormed s (.headerTick hasAckQuorum, env)).2) := by
  have hqueued :
      queuedDigests (step onCertificateFormed s (.headerTick hasAckQuorum, env)).2 = [] := by
    show queuedDigests (List.map _ _ ++ List.map _ _) = []
    rw [queuedDigests_append, queuedDigests_certified]
    simp [queuedDigests, List.filterMap_map]
  suffices hticked : ∀ created, created = s.primary.tryCreateHeader s.certStore
      (CertSink.logged onCertificateFormed) (s.sink, []) hasAckQuorum env.votes env.now →
      (created.2.1.places created.2.2.2.1.dag).Perm (queuedDigests log) ∧
        created.2.1.voteTracker.closed = false ∧
        ∀ d entry, created.2.1.pendingVotes.get d = some entry → ∀ vote ∈ entry.votes,
          vote.headerDigest = d by
    obtain ⟨hperm, hopened, hkeyed⟩ := hticked _ rfl
    exact h.unmarked hqueued hperm hopened hkeyed
  rintro created rfl
  rcases s.primary.tryCreateHeader_cases s.certStore (CertSink.logged onCertificateFormed)
    (s.sink, []) hasAckQuorum env.votes env.now with
    ⟨rest, hrest, heq⟩ | ⟨digests, rest, header, hsplit, hbuild, heq⟩
  · rw [heq]
    refine ⟨List.Perm.trans (List.Perm.append_right _ ?_) h.perm, h.opened, h.keyed⟩
    rcases hrest with rfl | ⟨digests, hsplit, hnone⟩
    · exact .refl _
    · -- No header was made, so nothing was ready.
      have hready : digests = [] := by
        by_contra hne
        have hsome := hok.1 (by rw [hsplit]; exact hne)
        rw [Primary.nextHeader, hsplit] at hsome
        rw [hnone] at hsome
        cases hsome
      have hqueue := Primary.splitReady_perm hasAckQuorum
        s.primary.cfg.maxBatchesPerHeader [] s.primary.batchDigests
      rwa [hsplit, hready] at hqueue
  · obtain ⟨hnew, hadmits⟩ := hok.2 header (by
      rw [Primary.nextHeader, hsplit]
      exact hbuild)
    obtain ⟨sig, -, hheader⟩ := Primary.buildHeader_eq_some hbuild
    have htracked := track_conserved h hsplit (by rw [hheader]; rfl) hnew hadmits env.now
    rw [heq]
    have hkeeps := keeps_conserved CS (queuedDigests log) header.digest
      (insert s.primary.validatorID
        ((s.primary.bufferedVotes header.digest).map (·.validator)).toFinset)
      env.votes env.now
    have hvoted := hkeeps.survives.selfVote ⟨htracked, fun vote hvote => ?_⟩ fun vote hvote => ?_
    · have hdone := hkeeps.survives.processPendingVotes hvoted
      exact ⟨hdone.1.perm, hdone.1.opened, hdone.1.keyed⟩
    · exact Finset.mem_insert_of_mem (List.mem_toFinset.mpr (List.mem_map_of_mem hvote))
    · obtain ⟨sig, -, rfl⟩ := Vote.sign_eq_ok hvote
      exact ⟨rfl, Finset.mem_insert_self _ _⟩

theorem step_accounted (h : s.Accounted log) {ev : PrimaryEvent × PrimaryEnv}
    (hok : Conserving s log ev) :
    Accounted (step onCertificateFormed s ev).1
      (log ++ (step onCertificateFormed s ev).2) := by
  obtain ⟨event, env⟩ := ev
  cases event with
  | addBatchDigest digest => exact h.give hok
  | headerTick hasAckQuorum => exact step_headerTick_accounted h hasAckQuorum env hok
  | vote vote => exact step_vote_accounted h vote env hok
  | header header available =>
    unfold step
    dsimp only
    split
    · exact h.unmarked rfl h.perm h.opened h.keyed
    · exact h.unmarked rfl h.perm h.opened h.keyed
  | certificate cert =>
    obtain ⟨⟨round, hround⟩, -⟩ := s.primary.handleCertificate_eq s.certStore cert
    unfold step
    dsimp only
    rw [hround]
    exact h.unmarked rfl h.perm h.opened h.keyed
  | advanceRound =>
    obtain ⟨round, hround⟩ := s.primary.tryAdvanceRound_eq s.certStore
    unfold step
    rw [hround]
    exact h.unmarked rfl h.perm h.opened h.keyed
  | cleanup =>
    refine h.unmarked ?_ ?_ h.opened fun d entry hentry =>
      h.keyed d entry (GoMap.get_filter_eq_some.mp hentry).1
    · show queuedDigests (List.map _ _) = []
      simp [queuedDigests, List.filterMap_map]
    · refine List.Perm.trans ?_ h.perm
      have hrefs : headerRefs (s.primary.voteTracker.removeTimedOut env.now).2.pending =
          headerRefs s.primary.voteTracker.pending := by
        refine headerRefs_filter fun d ph hph hdrop => hok ph.header ?_
        refine List.mem_map_of_mem (List.mem_filter.mpr ⟨?_, by simpa using hdrop⟩)
        exact GoMap.mem_values.mpr ⟨d, hph⟩
      show (s.primary.batchDigests ++ (headerRefs
        (s.primary.voteTracker.removeTimedOut env.now).2.pending ++ _)).Perm _
      rw [hrefs]
      exact .refl _
  | restart => exact absurd hok (by simp [Conserving])

/-- In runs whose steps lose nothing, every digest that was given is in exactly one of
the places: the queue, the headers tracked, the certificates in the DAG. -/
theorem digests_conserved {me : UInt16} {signer : Signer} {cfg : PrimaryConfig}
    {vs : SimpleValidatorSet} {dagCfg : DagConfig}
    (h : Run.Reach (StartedEmpty me signer cfg vs dagCfg) (step onCertificateFormed)
      Conserving s log) :
    ∀ digest ∈ queuedDigests log,
      ((s.primary.places s.sink.dag).map (·.digest)).count digest.digest = 1 := by
  have haccounted : s.Accounted log := by
    refine h.invariant (I := fun s log => Accounted s log) (fun s hs => ?_)
      fun _ _ _ hI hok => step_accounted hI hok
    obtain ⟨hstart, hdag⟩ := hs
    have hp : s.primary = startPrimary me signer cfg vs := hstart
    refine ⟨?_, by rw [hp]; rfl, fun d entry hentry => ?_, List.nodup_nil⟩
    · rw [hp, hdag]
      exact .refl _
    · rw [hp] at hentry
      exact absurd hentry GoMap.get_empty_ne
  intro digest hdigest
  rw [(haccounted.perm.map _).count_eq]
  exact List.count_eq_one_of_mem haccounted.distinct (List.mem_map_of_mem hdigest)

end PrimarySystem

section

open IdealScheme

def idealDigest : BatchDigest := { digest := 7, workerID := 0, validatorID := 0 }

def idealFormed : Looseberry.Formed :=
  { dag := .new { maxHistoryDepth := 10, maxHistoryCacheSize := 10 }
    flow := .new { maxUncommittedRounds := 10, maxPendingBatches := 10
                   maxPendingHeaders := 10 }
    certs := [] }

theorem started_idealPrimary :
    PrimarySystem.StartedEmpty 0 (idealSigner 0) idealPrimaryConfig (idealValidators 4 0)
      { maxHistoryDepth := 10, maxHistoryCacheSize := 10 } (idealPrimary idealFormed) :=
  ⟨rfl, rfl⟩

/-- A digest goes into a header, nobody votes for it, and the clean-up comes. -/
def headerTimesOut : List PrimaryEvent :=
  [.addBatchDigest idealDigest, .headerTick fun _ => true, .advanceRound, .cleanup]

theorem digest_lost_with_header :
    ∃ (s : PrimarySystem Looseberry.Formed MemoryCertificateStore) (log : List PrimaryMark),
      Run.Reach
        (PrimarySystem.StartedEmpty 0 (idealSigner 0) idealPrimaryConfig (idealValidators 4 0)
          { maxHistoryDepth := 10, maxHistoryCacheSize := 10 })
        (PrimarySystem.step Looseberry.onCertificateFormed) (fun _ _ _ => True) s log ∧
      idealDigest ∈ PrimaryMark.queuedDigests log ∧
      s.primary.batchDigests = [] ∧ headerRefs s.primary.voteTracker.pending = [] ∧
      s.sink.dag.batchRefs = [] := by
  have hok : Run.AllOk (PrimarySystem.step Looseberry.onCertificateFormed)
      (fun _ _ _ => True) (idealPrimary idealFormed) [] (idealPrimaryRun headerTimesOut) :=
    Run.AllOk.of_forall (fun _ _ _ => trivial) _ _ _
  exact ⟨_, _, reach_idealPrimaryExec started_idealPrimary hok, by decide +kernel⟩

def idealBatchHeader : Header := idealHeader 0 0 [idealDigest] [] 2

/-- Two more validators vote for it. -/
def headerCertified : List PrimaryEvent :=
  [.addBatchDigest idealDigest, .headerTick fun _ => true,
    .vote (idealVote idealBatchHeader.digest 1), .vote (idealVote idealBatchHeader.digest 2)]

theorem digests_conserved_certified :
    ∃ (s : PrimarySystem Looseberry.Formed MemoryCertificateStore) (log : List PrimaryMark),
      Run.Reach
        (PrimarySystem.StartedEmpty 0 (idealSigner 0) idealPrimaryConfig (idealValidators 4 0)
          { maxHistoryDepth := 10, maxHistoryCacheSize := 10 })
        (PrimarySystem.step Looseberry.onCertificateFormed) PrimarySystem.Conserving s log ∧
      idealDigest ∈ s.sink.dag.batchRefs ∧
      ((s.primary.places s.sink.dag).map (·.digest)).count idealDigest.digest = 1 := by
  have hok : Run.AllOk (PrimarySystem.step Looseberry.onCertificateFormed)
      PrimarySystem.Conserving (idealPrimary idealFormed) []
      (idealPrimaryRun headerCertified) := by decide +kernel
  have hrun := reach_idealPrimaryExec started_idealPrimary hok
  have hqueued : idealDigest ∈ PrimaryMark.queuedDigests (idealPrimaryExec
      Looseberry.onCertificateFormed idealFormed headerCertified).2 := by decide +kernel
  have hdag : idealDigest ∈ (idealPrimaryExec Looseberry.onCertificateFormed idealFormed
      headerCertified).1.sink.dag.batchRefs := by decide +kernel
  generalize idealPrimaryExec Looseberry.onCertificateFormed idealFormed headerCertified = run
    at hrun hqueued hdag
  exact ⟨run.1, run.2, hrun, hdag, PrimarySystem.digests_conserved hrun _ hqueued⟩

end

end DagMempool
