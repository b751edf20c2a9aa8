import DagMempool.Primary.Primary

/-!
# What the primary's handlers keep

Certificates are formed in three places: when a vote arrives, when the primary
votes for its own header, and when it goes through the votes that came before the
header did. All three record a vote, and between them they only move the round,
the queue of batches and the buffer of votes. `Keeps` collects what a property of
the primary, the certificate store and the state of the certificate callback has to
satisfy for that, and the rules below carry it through the handlers.
-/

namespace DagMempool.Primary

theorem splitReady_perm (hasAckQuorum : Hash → Bool) (maxBatches : Nat)
    (ready queue : List BatchDigest) :
    ((splitReady hasAckQuorum maxBatches ready queue).1 ++
      (splitReady hasAckQuorum maxBatches ready queue).2).Perm (ready ++ queue) := by
  induction queue generalizing ready with
  | nil => exact .refl _
  | cons d queue ih =>
    rw [splitReady]
    split
    · have hperm := ih (ready ++ [d])
      rwa [List.append_assoc, List.singleton_append] at hperm
    · exact List.perm_middle.trans (((ih ready).cons d).trans List.perm_middle.symm)

theorem splitReady_sublist (hasAckQuorum : Hash → Bool) (maxBatches : Nat)
    (ready queue : List BatchDigest) :
    (splitReady hasAckQuorum maxBatches ready queue).1.Sublist (ready ++ queue) ∧
      (splitReady hasAckQuorum maxBatches ready queue).2.Sublist queue := by
  induction queue generalizing ready with
  | nil => exact ⟨by simp [splitReady], .slnil⟩
  | cons d queue ih =>
    rw [splitReady]
    split
    · obtain ⟨hready, hrest⟩ := ih (ready ++ [d])
      rw [List.append_assoc, List.singleton_append] at hready
      exact ⟨hready, hrest.cons d⟩
    · obtain ⟨hready, hrest⟩ := ih ready
      exact ⟨hready.trans ((List.sublist_cons_self d queue).append_left ready), hrest.cons_cons d⟩

variable [Crypto] [SliceSort] {CS κ : Type} [CertificateStore CS]

section

variable (p : Primary) (certStore : CS) (sink : CertSink κ CS) (k : κ) (hasAckQuorum : Hash → Bool)
  (vote : Vote) (order : IterOrder Vote) (now : Int)

/-- A vote is recorded and nothing else happens, or a certificate is formed from what
is then pending for its header, saved, and given to the callback. -/
theorem recordVote_cases :
    ∃ vt, p.voteTracker.Recorded vote vt ∧
      (p.recordVote certStore sink k vote order now =
          (none, { p with voteTracker := vt }, certStore, k) ∨
        ∃ ph, vt.pending.get vote.headerDigest = some ph ∧
          p.validatorSet.quorum ≤ ph.votes.len ∧
          p.recordVote certStore sink k vote order now =
            (some (VoteTracker.formCertificate ph p.validatorSet.quorum order),
              { p with voteTracker := vt }.certificateFormed certStore sink k
                (VoteTracker.formCertificate ph p.validatorSet.quorum order)
                vote.headerDigest)) := by
  refine ⟨(p.voteTracker.recordVote vote p.validatorSet.quorum order now).2,
    VoteTracker.recordVote_recorded _ _ _ _ _, ?_⟩
  cases hc : (p.voteTracker.recordVote vote p.validatorSet.quorum order now).1 with
  | none =>
    refine .inl ?_
    rw [recordVote, hc]
  | some cert =>
    obtain ⟨ph, hph, hquorum, rfl⟩ := VoteTracker.recordVote_eq_some hc
    refine .inr ⟨ph, hph, hquorum, ?_⟩
    rw [recordVote, hc]

theorem recordVote_pendingVotes :
    (p.recordVote certStore sink k vote order now).2.1.pendingVotes = p.pendingVotes := by
  obtain ⟨vt, -, heq | ⟨ph, -, -, heq⟩⟩ := p.recordVote_cases certStore sink k vote order now
  · rw [heq]
  · rw [heq]
    rfl

/-- No header is made, and the queue is as it was or has lost what is ready, or one is
built from what is ready, tracked, and voted for. -/
theorem tryCreateHeader_cases :
    (∃ rest,
      (rest = p.batchDigests ∨ ∃ digests,
        splitReady hasAckQuorum p.cfg.maxBatchesPerHeader [] p.batchDigests = (digests, rest) ∧
        { p with batchDigests := rest }.buildHeader certStore digests now = none) ∧
      p.tryCreateHeader certStore sink k hasAckQuorum order now =
        (none, { p with batchDigests := rest }, certStore, k)) ∨
    ∃ digests rest header,
      splitReady hasAckQuorum p.cfg.maxBatchesPerHeader [] p.batchDigests = (digests, rest) ∧
      { p with batchDigests := rest }.buildHeader certStore digests now = some header ∧
      p.tryCreateHeader certStore sink k hasAckQuorum order now =
        let tracked := { p with
          batchDigests := rest
          voteTracker := p.voteTracker.trackHeader header now }
        let voted := tracked.selfVote certStore sink k header order now
        (some header,
          voted.1.processPendingVotes voted.2.1 sink voted.2.2 header.digest order now) := by
  unfold tryCreateHeader
  split
  · exact .inl ⟨p.batchDigests, .inl rfl, rfl⟩
  · split
    · exact .inl ⟨p.batchDigests, .inl rfl, rfl⟩
    · dsimp only
      split
      · next hnone => exact .inl ⟨_, .inr ⟨_, rfl, hnone⟩, rfl⟩
      · next header hheader => exact .inr ⟨_, _, header, rfl, hheader, rfl⟩

end

variable {sink : CertSink κ CS} {order : IterOrder Vote} {I : Primary → CS → κ → Prop}
variable {certStore : CS} {now : Int}

theorem tryCreateHeader_eq_some {p : Primary} {k : κ} {hasAckQuorum : Hash → Bool}
    {header : Header}
    (h : (p.tryCreateHeader certStore sink k hasAckQuorum order now).1 = some header) :
    ∃ rest digests,
      { p with batchDigests := rest }.buildHeader certStore digests now = some header := by
  rcases p.tryCreateHeader_cases certStore sink k hasAckQuorum order now with
    ⟨rest, -, he⟩ | ⟨digests, rest, header', -, hb, he⟩
  · rw [he] at h
    cases h
  · rw [he] at h
    cases h
    exact ⟨rest, digests, hb⟩

/-! ## The rules

A header tick and a vote both come down to votes recorded for one header. A property that survives
each of them survives the handler, and `V` and `J` say what may be assumed meanwhile. -/

/-- A property of what a handler leaves: the primary, the store, the callback's state. -/
abbrev Leaves (I : Primary → CS → κ → Prop) (out : Primary × CS × κ) : Prop :=
  I out.1 out.2.1 out.2.2

/-- A property that survives the votes recorded for one header. `V` is what is known of these
votes. -/
structure Records (I : Primary → CS → κ → Prop) (V : Vote → Prop) (sink : CertSink κ CS)
    (order : IterOrder Vote) (now : Int) (digest : Hash) : Prop where
  record : ∀ {p certStore k vote}, I p certStore k → V vote →
    Leaves I (p.recordVote certStore sink k vote order now).2
  buffered : ∀ {p certStore k entry}, I p certStore k →
    p.pendingVotes.get digest = some entry → ∀ vote ∈ entry.votes, V vote
  unbuffer : ∀ {p certStore k}, I p certStore k →
    I { p with pendingVotes := p.pendingVotes.del digest } certStore k

/-- It survives the advance that may follow as well. -/
structure Survives (I : Primary → CS → κ → Prop) (V : Vote → Prop) (sink : CertSink κ CS)
    (order : IterOrder Vote) (now : Int) (digest : Hash) : Prop
    extends Records I V sink order now digest where
  advance : ∀ {p certStore k}, I p certStore k → I (p.tryAdvanceRound certStore) certStore k

namespace Survives

variable {I : Primary → CS → κ → Prop} {V : Vote → Prop} {sink : CertSink κ CS}
variable {order : IterOrder Vote} {now : Int} {digest : Hash}
variable {p : Primary} {certStore : CS} {k : κ}

theorem recordVotes (h : Survives I V sink order now digest) {votes : List Vote}
    (hI : I p certStore k) (hV : ∀ vote ∈ votes, V vote) :
    Leaves I (p.recordVotes certStore sink k order now votes) := by
  induction votes generalizing p certStore k with
  | nil => exact hI
  | cons vote votes ih =>
    have hrec := h.record hI (hV vote List.mem_cons_self)
    unfold Primary.recordVotes
    dsimp only
    split
    · exact hrec
    · exact ih hrec fun v hv => hV v (List.mem_cons_of_mem _ hv)

theorem processPendingVotes (h : Survives I V sink order now digest) (hI : I p certStore k) :
    Leaves I (p.processPendingVotes certStore sink k digest order now) := by
  unfold Primary.processPendingVotes
  split
  · exact hI
  · next entry hentry => exact h.recordVotes (h.unbuffer hI) (h.buffered hI hentry)

theorem selfVote {header : Header} (h : Survives I V sink order now header.digest)
    (hI : I p certStore k)
    (hV : ∀ vote, (Vote.new header.digest p.validatorID).sign p.signer = .ok vote → V vote) :
    Leaves I (p.selfVote certStore sink k header order now) := by
  unfold Primary.selfVote
  split
  · exact hI
  · next vote hvote =>
      have hrec := h.record hI (hV vote hvote)
      dsimp only
      split
      · exact hrec
      · exact h.advance hrec

end Survives

/-- A tick of the header loop changes the queue, and then tracks a header of its own
and records votes for it. While it does, more may be known than before: `J` is what
holds from the moment the header is tracked. -/
theorem tryCreateHeader_survives {J : Header → Primary → CS → κ → Prop} {V : Header → Vote → Prop}
    {p : Primary} {k : κ} (hasAckQuorum : Hash → Bool)
    (hqueue : ∀ rest, I { p with batchDigests := rest } certStore k)
    (htrack : ∀ rest digests header,
      splitReady hasAckQuorum p.cfg.maxBatchesPerHeader [] p.batchDigests = (digests, rest) →
      { p with batchDigests := rest }.buildHeader certStore digests now = some header →
      J header
        { p with
          batchDigests := rest
          voteTracker := p.voteTracker.trackHeader header now } certStore k ∧
        ∀ vote, (Vote.new header.digest p.validatorID).sign p.signer = .ok vote →
          V header vote)
    (hkeeps : ∀ header, Survives (J header) (V header) sink order now header.digest)
    (hdone : ∀ header p certStore k, J header p certStore k → I p certStore k) :
    Leaves I (p.tryCreateHeader certStore sink k hasAckQuorum order now).2 := by
  rcases p.tryCreateHeader_cases certStore sink k hasAckQuorum order now with
    ⟨rest, -, he⟩ | ⟨digests, rest, header, hsplit, hb, he⟩
  · rw [he]
    exact hqueue rest
  · obtain ⟨htracked, hvote⟩ := htrack rest digests header hsplit hb
    have hvoted := (hkeeps header).selfVote htracked hvote
    rw [he]
    exact hdone header _ _ _ ((hkeeps header).processPendingVotes hvoted)

/-- A property that has nothing to do with the round the primary is in. -/
structure Keeps (I : Primary → CS → κ → Prop) (V : Vote → Prop) (sink : CertSink κ CS)
    (order : IterOrder Vote) (now : Int) (digest : Hash) : Prop
    extends Records I V sink order now digest where
  round : ∀ {p certStore k} (round : UInt64), I p certStore k →
    I { p with currentRound := round } certStore k

theorem Keeps.survives {V : Vote → Prop} {digest : Hash} (h : Keeps I V sink order now digest) :
    Survives I V sink order now digest where
  toRecords := h.toRecords
  advance {p certStore _} hI := by
    obtain ⟨currentRound, heq⟩ := p.tryAdvanceRound_eq certStore
    rw [heq]
    exact h.round _ hI

def Voted (p p' : Primary) : Prop :=
  ∃ voteTracker pendingVotes currentRound,
    p' = { p with voteTracker, pendingVotes, currentRound }

omit [SliceSort] in
theorem Voted.refl (p : Primary) : p.Voted p := ⟨_, _, _, rfl⟩

theorem keeps_voted (p : Primary) (sink : CertSink κ CS) (order : IterOrder Vote) (now : Int)
    (digest : Hash) :
    Keeps (fun q (_ : CS) _ => p.Voted q) (fun _ => True) sink order now digest where
  record := by
    intro q certStore k vote hq _
    obtain ⟨_, _, _, rfl⟩ := hq
    obtain ⟨vt, -, heq | ⟨ph, -, -, heq⟩⟩ := recordVote_cases _ certStore sink k vote order now
    · rw [heq]
      exact ⟨_, _, _, rfl⟩
    · rw [heq]
      exact ⟨_, _, _, rfl⟩
  round := by
    intro q _ _ _ hq
    obtain ⟨_, _, _, rfl⟩ := hq
    exact ⟨_, _, _, rfl⟩
  buffered _ _ _ _ := trivial
  unbuffer := by
    intro q _ _ hq
    obtain ⟨_, _, _, rfl⟩ := hq
    exact ⟨_, _, _, rfl⟩

/-- A vote is ignored; or it is valid, and is kept for a header that is not tracked or
recorded for one that is. -/
theorem handleVote_cases (p : Primary) (certStore : CS) (sink : CertSink κ CS) (k : κ)
    (vote : Vote) (order : IterOrder Vote) (now : Int) :
    p.handleVote certStore sink k vote order now = (none, p, certStore, k) ∨
      p.validatorSet.verifySignature vote.validator vote.headerDigest vote.signature = true ∧
        (p.voteTracker.hasHeader vote.headerDigest = false ∧
            p.handleVote certStore sink k vote order now =
              (none, p.bufferVote vote now, certStore, k) ∨
          p.voteTracker.hasHeader vote.headerDigest = true ∧
            p.handleVote certStore sink k vote order now =
              p.recordVote certStore sink k vote order now) := by
  unfold handleVote
  split
  · exact .inl rfl
  · split
    · exact .inl rfl
    · next hsig =>
        refine .inr ⟨by simpa using hsig, ?_⟩
        split
        · next hnot => exact .inl ⟨by simpa using hnot, rfl⟩
        · next htracked => exact .inr ⟨by simpa using htracked, rfl⟩

theorem handleVote_leaves {p : Primary} {k : κ} {vote : Vote} (hI : I p certStore k)
    (hvalid : p.validatorSet.verifySignature vote.validator vote.headerDigest
        vote.signature = true →
      I (p.bufferVote vote now) certStore k ∧
        Leaves I (p.recordVote certStore sink k vote order now).2) :
    Leaves I (p.handleVote certStore sink k vote order now).2 := by
  rcases p.handleVote_cases certStore sink k vote order now with
    heq | ⟨hsig, ⟨-, heq⟩ | ⟨-, heq⟩⟩
  · rw [heq]
    exact hI
  · rw [heq]
    exact (hvalid hsig).1
  · rw [heq]
    exact (hvalid hsig).2

theorem handleVote_voted (p : Primary) (certStore : CS) (sink : CertSink κ CS) (k : κ)
    (vote : Vote) (order : IterOrder Vote) (now : Int) :
    p.Voted (p.handleVote certStore sink k vote order now).2.1 :=
  handleVote_leaves (I := fun q (_ : CS) (_ : κ) => p.Voted q) (.refl p) fun _ =>
    ⟨⟨_, _, _, rfl⟩,
      (p.keeps_voted sink order now vote.headerDigest).record (.refl p) trivial⟩

/-- What a header tick does with the queue: some digests are ready and leave it, for the
header that is broadcast or for one that cannot be signed, and the votes and the round are
all that differs besides. -/
structure Ticked (p : Primary) (certStore : CS) (hasAckQuorum : Hash → Bool) (now : Int)
    (out : Option Header × Primary) (digests rest : List BatchDigest) : Prop where
  split : digests = [] ∧ rest = p.batchDigests ∨
    splitReady hasAckQuorum p.cfg.maxBatchesPerHeader [] p.batchDigests = (digests, rest)
  voted : { p with batchDigests := rest }.Voted out.2
  made : ∀ header, out.1 = some header →
    ∃ signature, header = { p.unsigned certStore digests now with signature }
  failed : out.1 = none → digests = [] ∨
    ∃ err, p.signer.sign (p.unsigned certStore digests now).digest = .error err

section

variable {p : Primary} {hasAckQuorum : Hash → Bool} {out : Option Header × Primary}
  {digests rest : List BatchDigest}

theorem Ticked.batchDigests (h : p.Ticked certStore hasAckQuorum now out digests rest) :
    out.2.batchDigests = rest := by
  obtain ⟨_, _, _, heq⟩ := h.voted
  rw [heq]

theorem Ticked.perm (h : p.Ticked certStore hasAckQuorum now out digests rest) :
    (digests ++ rest).Perm p.batchDigests := by
  rcases h.split with ⟨rfl, rfl⟩ | hsplit
  · exact .refl _
  · have hperm := splitReady_perm hasAckQuorum p.cfg.maxBatchesPerHeader [] p.batchDigests
    rwa [hsplit, List.nil_append] at hperm

theorem Ticked.sublist (h : p.Ticked certStore hasAckQuorum now out digests rest) :
    digests.Sublist p.batchDigests ∧ rest.Sublist p.batchDigests := by
  rcases h.split with ⟨rfl, rfl⟩ | hsplit
  · exact ⟨List.nil_sublist _, .refl _⟩
  · have hsub := splitReady_sublist hasAckQuorum p.cfg.maxBatchesPerHeader [] p.batchDigests
    rwa [hsplit] at hsub

end

theorem tryCreateHeader_ticked (p : Primary) (certStore : CS) (sink : CertSink κ CS) (k : κ)
    (hasAckQuorum : Hash → Bool) (order : IterOrder Vote) (now : Int) :
    ∃ digests rest, p.Ticked certStore hasAckQuorum now
      ((p.tryCreateHeader certStore sink k hasAckQuorum order now).1,
        (p.tryCreateHeader certStore sink k hasAckQuorum order now).2.1) digests rest := by
  rcases p.tryCreateHeader_cases certStore sink k hasAckQuorum order now with
    ⟨rest, hrest, he⟩ | ⟨digests, rest, header, hsplit, hb, he⟩
  · rw [he]
    rcases hrest with rfl | ⟨digests, hsplit, hnone⟩
    · exact ⟨[], _, .inl ⟨rfl, rfl⟩, .refl _, fun _ h => absurd h (by simp), fun _ => .inl rfl⟩
    · exact ⟨digests, rest, .inr hsplit, .refl _, fun _ h => absurd h (by simp),
        fun _ => buildHeader_eq_none hnone⟩
  · have hkeeps := ({ p with batchDigests := rest }.keeps_voted sink order now
      header.digest).survives
    let tracked : Primary :=
      { p with batchDigests := rest, voteTracker := p.voteTracker.trackHeader header now }
    have hvoted : { p with batchDigests := rest }.Voted
        (tracked.selfVote certStore sink k header order now).1 :=
      hkeeps.selfVote ⟨_, _, _, rfl⟩ fun _ _ => trivial
    rw [he]
    refine ⟨digests, rest, .inr hsplit, hkeeps.processPendingVotes hvoted, fun header' h => ?_,
      fun h => absurd h (by simp)⟩
    obtain ⟨sig, -, hheader⟩ := buildHeader_eq_some hb
    cases h
    exact ⟨sig, hheader⟩

/-! ## How far a call takes the primary

The round is touched by `tryAdvanceRound` alone, which adds one, and no call gets to it
twice: a header tick does when its own vote completes a certificate, and the votes that
came early do not. -/

def Forward (p p' : Primary) : Prop :=
  p'.currentRound = p.currentRound ∨ p'.currentRound = p.currentRound + 1

variable (p : Primary) (certStore : CS) (sink : CertSink κ CS) (k : κ) (hasAckQuorum : Hash → Bool)
  (vote : Vote) (order : IterOrder Vote) (now : Int)

omit [SliceSort] in
theorem tryAdvanceRound_forward : p.Forward (p.tryAdvanceRound certStore) := by
  unfold tryAdvanceRound
  split
  · exact .inl rfl
  · split
    · exact .inr rfl
    · exact .inl rfl

theorem recordVote_currentRound :
    (p.recordVote certStore sink k vote order now).2.1.currentRound = p.currentRound := by
  obtain ⟨vt, -, heq | ⟨ph, -, -, heq⟩⟩ := p.recordVote_cases certStore sink k vote order now
  · rw [heq]
  · rw [heq]
    rfl

theorem processPendingVotes_currentRound (headerDigest : Hash) (order : IterOrder Vote)
    (now : Int) :
    (p.processPendingVotes certStore sink k headerDigest order now).1.currentRound =
      p.currentRound := by
  have hvotes : ∀ (votes : List Vote) (q : Primary) (certStore : CS) (k : κ),
      (q.recordVotes certStore sink k order now votes).1.currentRound = q.currentRound := by
    intro votes
    induction votes with
    | nil => exact fun _ _ _ => rfl
    | cons vote votes ih =>
      intro q certStore k
      unfold recordVotes
      dsimp only
      split
      · exact q.recordVote_currentRound certStore sink k vote order now
      · rw [ih, recordVote_currentRound]
  unfold processPendingVotes
  split
  · rfl
  · rw [hvotes]

theorem selfVote_forward (header : Header) (order : IterOrder Vote) (now : Int) :
    p.Forward (p.selfVote certStore sink k header order now).1 := by
  unfold selfVote
  split
  · exact .inl rfl
  · next vote _ =>
      have hsame := p.recordVote_currentRound certStore sink k vote order now
      dsimp only
      split
      · exact .inl hsame
      · have hforward := tryAdvanceRound_forward
          (p.recordVote certStore sink k vote order now).2.1
          (p.recordVote certStore sink k vote order now).2.2.1
        rwa [Forward, hsame] at hforward

theorem tryCreateHeader_forward :
    p.Forward (p.tryCreateHeader certStore sink k hasAckQuorum order now).2.1 := by
  rcases p.tryCreateHeader_cases certStore sink k hasAckQuorum order now with
    ⟨rest, -, he⟩ | ⟨digests, rest, header, -, -, he⟩
  · rw [he]
    exact .inl rfl
  · let tracked : Primary :=
      { p with batchDigests := rest, voteTracker := p.voteTracker.trackHeader header now }
    have hforward : tracked.Forward _ := tracked.selfVote_forward certStore sink k header order now
    rw [he]
    rwa [Forward, processPendingVotes_currentRound]

theorem handleVote_currentRound :
    (p.handleVote certStore sink k vote order now).2.1.currentRound = p.currentRound :=
  handleVote_leaves (I := fun q (_ : CS) (_ : κ) => q.currentRound = p.currentRound) rfl
    fun _ => ⟨rfl, p.recordVote_currentRound certStore sink k vote order now⟩

omit [SliceSort] in
theorem handleCertificate_forward (cert : Certificate) :
    p.Forward (p.handleCertificate certStore cert).2.1 := by
  unfold handleCertificate
  split
  · exact .inl rfl
  · split
    · exact .inl rfl
    · dsimp only
      split
      · exact .inl rfl
      · exact p.tryAdvanceRound_forward _

end DagMempool.Primary
