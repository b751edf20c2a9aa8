import DagMempool.Primary.Ideal
import DagMempool.Proofs.VoteCounting

/-!
# One certificate for a header

A primary whose headers have different digests gives its callback at most one
certificate for each of them, and every certificate it gives is proper: a quorum of
votes, in order, of different validators, accepted by `Verify`. A header whose votes no
clean-up has thrown away is certified exactly when the validators with a valid vote
delivered, and the primary itself, are a quorum.

The invariant has a ballot for each header made. It is the one that those who voted so
far make of an open ballot, unless a clean-up came between; for a digest no header was
made with yet, those who voted so far are in the buffer.
-/

namespace DagMempool

namespace PrimaryMark

def voters [Crypto] (vs : SimpleValidatorSet) (log : List PrimaryMark) (d : Hash) :
    Finset UInt16 :=
  (((deliveredVotes log).filter fun vote => vote.headerDigest == d &&
    vs.verifySignature vote.validator d vote.signature).map (·.validator)).toFinset

def createdDigests (log : List PrimaryMark) : List Hash :=
  (createdHeaders log).map (·.digest)

theorem voters_append [Crypto] (vs : SimpleValidatorSet) (log log' : List PrimaryMark)
    (d : Hash) :
    voters vs (log ++ log') d = voters vs log d ∪ voters vs log' d := by
  rw [voters, deliveredVotes_append, List.filter_append, List.map_append,
    List.toFinset_append]
  rfl

end PrimaryMark

/-! ## The invariant

`Counted` says of each header what its ballot has come to, and of each digest without a header
what is in the buffer for it, both in terms of the voters the marks have. -/

namespace PrimarySystem

open PrimaryMark

variable [Crypto] {κ CS : Type} [CertificateStore CS] [SliceSort]

/-- The headers a primary makes have different digests, and it is not restarted. -/
def HeadersDistinct (s : PrimarySystem κ CS) (log : List PrimaryMark) :
    PrimaryEvent × PrimaryEnv → Prop
  | (.headerTick hasAckQuorum, env) =>
    ∀ header ∈ s.primary.nextHeader s.certStore hasAckQuorum env.now,
      header.digest ∉ createdDigests log
  | (.restart, _) => False
  | _ => True

instance (s : PrimarySystem κ CS) (log : List PrimaryMark) :
    ∀ ev, Decidable (HeadersDistinct s log ev)
  | (.headerTick _, _) =>
    inferInstanceAs (Decidable (∀ header ∈ _, Header.digest header ∉ createdDigests log))
  | (.restart, _) => .isFalse id
  | (.addBatchDigest _, _) | (.vote _, _) | (.header _ _, _) | (.certificate _, _)
  | (.advanceRound, _) | (.cleanup, _) => .isTrue trivial

omit [CertificateStore CS] [SliceSort] in
structure Counted (vs : SimpleValidatorSet) (me : UInt16) (s : PrimarySystem κ CS)
    (log : List PrimaryMark) : Prop where
  running : s.primary.running = true
  self : s.primary.validatorID = me
  counting : s.primary.Counting vs (createdHeaders log) (certifiedCertificates log)
  ballot : ∀ d, ∃ b, s.primary.Tallied (certifiedCertificates log) d b
  fresh : ∀ d, d ∉ createdDigests log → s.primary.Tallied (certifiedCertificates log) d .absent
  exact : ∀ d, .expired d ∉ log → d ∈ createdDigests log →
    s.primary.Tallied (certifiedCertificates log) d
      (.after vs.quorum (insert me (voters vs log d)))
  waiting : ∀ d, .expired d ∉ log → d ∉ createdDigests log →
    ((s.primary.bufferedVotes d).map (·.validator)).toFinset = voters vs log d

variable {vs : SimpleValidatorSet} {me : UInt16} {s : PrimarySystem κ CS}
  {log : List PrimaryMark}

omit [CertificateStore CS] [SliceSort] in
theorem started_counted {signer : Signer} {cfg : PrimaryConfig}
    (h : s.Started me signer cfg vs)
    (hself : ∃ v, vs.getByIndex me = some v ∧ v.publicKey = signer.publicKey) :
    s.Counted vs me [] := by
  have hp : s.primary = startPrimary me signer cfg vs := h
  have habsent : ∀ d, s.primary.Tallied [] d .absent := by
    intro d
    rw [hp]
    exact ⟨GoMap.get_empty _, rfl⟩
  have hcounting : s.primary.Counting vs [] [] := by
    rw [hp]
    refine ⟨⟨rfl, hself, fun d ph hd => ?_, fun d entry hd => ?_⟩,
      VoteTracker.counting_new _, fun i d hs => ?_, fun d ph hd => ?_, fun c hc => ?_⟩
    · exact absurd hd GoMap.get_empty_ne
    · exact absurd hd GoMap.get_empty_ne
    · exact absurd hs (by
        simp [VoteTracker.seen, startPrimary, Primary.new, VoteTracker.new, GoMap.has])
    · exact absurd hd GoMap.get_empty_ne
    · cases hc
  refine ⟨by rw [hp]; rfl, by rw [hp]; rfl, hcounting, fun d => ⟨_, habsent d⟩,
    fun d _ => habsent d, fun d _ hd => absurd hd (by simp [createdDigests, createdHeaders]),
    fun d _ _ => ?_⟩
  rw [hp]
  rfl

omit [CertificateStore CS] [SliceSort] in
theorem Counted.quiet (h : s.Counted vs me log) {new : List PrimaryMark}
    (hcreated : createdHeaders new = []) (hcertified : certifiedCertificates new = [])
    (hvoters : ∀ d, voters vs new d = ∅) (currentRound : UInt64)
    (batchDigests : List BatchDigest) (certStore : CS) (sink : κ) :
    Counted vs me
      { primary := { s.primary with currentRound, batchDigests }, certStore, sink }
      (log ++ new) := by
  have hdigests : createdDigests (log ++ new) = createdDigests log := by
    rw [createdDigests, createdHeaders_append, hcreated, List.append_nil]
    rfl
  have hvoters : ∀ d, voters vs (log ++ new) d = voters vs log d := by
    intro d
    rw [voters_append, hvoters, Finset.union_empty]
  have hcerts : certifiedCertificates (log ++ new) = certifiedCertificates log := by
    rw [certifiedCertificates_append, hcertified, List.append_nil]
  refine ⟨h.running, h.self, ?_, fun d => ?_, fun d hd => ?_, fun d hexp hd => ?_,
    fun d hexp hd => ?_⟩
  · rw [createdHeaders_append, hcreated, List.append_nil, hcerts]
    exact h.counting.frame currentRound batchDigests
  · rw [hcerts]
    exact h.ballot d
  · rw [hcerts]
    rw [hdigests] at hd
    exact h.fresh d hd
  · rw [hcerts, hvoters]
    rw [hdigests] at hd
    exact h.exact d (fun hin => hexp (List.mem_append_left _ hin)) hd
  · rw [hvoters]
    rw [hdigests] at hd
    exact h.waiting d (fun hin => hexp (List.mem_append_left _ hin)) hd

/-! ## Votes

A vote that is delivered is cast on the ballot of its header, or waits for it in the buffer. -/

omit [CertificateStore CS] [SliceSort] in
theorem Counted.cast (h : s.Counted vs me log) {d : Hash} {voter : UInt16} {p : Primary}
    {certs : List Certificate} {new : List PrimaryMark} (certStore : CS) (sink : κ)
    (hcast : Primary.Cast vs (createdHeaders log) d [voter] s.primary
      (certifiedCertificates log) p (certifiedCertificates log ++ certs))
    (hbuffered : d ∉ createdDigests log → ∃ vote, vote.validator = voter ∧
      p.bufferedVotes d = s.primary.bufferedVotes d ++ [vote])
    (hcreated : createdHeaders new = []) (hcertified : certifiedCertificates new = certs)
    (hvoters : ∀ d', voters vs new d' = if d' = d then {voter} else ∅) :
    Counted vs me { primary := p, certStore, sink } (log ++ new) := by
  have hdigests : createdDigests (log ++ new) = createdDigests log := by
    rw [createdDigests, createdHeaders_append, hcreated, List.append_nil]
    rfl
  have hcerts : certifiedCertificates (log ++ new) = certifiedCertificates log ++ certs := by
    rw [certifiedCertificates_append, hcertified]
  obtain ⟨vt, round, pendingVotes, hframe, hothers⟩ := hcast.frame
  have hsame : ∀ d', d' ≠ d → p.bufferedVotes d' = s.primary.bufferedVotes d' := by
    intro d' hne
    rw [hframe, Primary.bufferedVotes, Primary.bufferedVotes, hothers d' hne]
  refine ⟨by rw [hframe]; exact h.running, by rw [hframe]; exact h.self, ?_, fun d' => ?_,
    fun d' hd => ?_, fun d' hexp hd => ?_, fun d' hexp hd => ?_⟩
  · rw [createdHeaders_append, hcreated, List.append_nil, hcerts]
    exact hcast.counting
  · rw [hcerts]
    obtain ⟨b, hb⟩ := h.ballot d'
    by_cases hne : d' = d
    · subst hne
      exact ⟨_, hcast.tallied b hb⟩
    · exact ⟨_, hcast.others d' b hne hb⟩
  · rw [hcerts]
    rw [hdigests] at hd
    by_cases hne : d' = d
    · subst hne
      exact hcast.tallied _ (h.fresh d' hd)
    · exact hcast.others d' _ hne (h.fresh d' hd)
  · rw [hcerts, voters_append, hvoters]
    rw [hdigests] at hd
    have hexact := h.exact d' (fun hin => hexp (List.mem_append_left _ hin)) hd
    by_cases hne : d' = d
    · subst hne
      have hcast := hcast.tallied _ hexact
      rw [Ballot.castAll_after] at hcast
      rw [if_pos rfl, Finset.union_comm, ← Finset.union_insert]
      exact hcast
    · rw [if_neg hne, Finset.union_empty]
      exact hcast.others d' _ hne hexact
  · rw [voters_append, hvoters]
    rw [hdigests] at hd
    have hwaiting := h.waiting d' (fun hin => hexp (List.mem_append_left _ hin)) hd
    by_cases hne : d' = d
    · subst hne
      obtain ⟨vote, hvote, hvotes⟩ := hbuffered hd
      rw [if_pos rfl, hvotes, List.map_append, List.toFinset_append, hwaiting, ← hvote]
      rfl
    · rw [if_neg hne, Finset.union_empty, hsame d' hne, hwaiting]

omit [SliceSort] in
theorem voters_delivered (vs : SimpleValidatorSet) {vote : Vote}
    (hvalid : vs.verifySignature vote.validator vote.headerDigest vote.signature = true)
    (certs : List Certificate) (d : Hash) :
    voters vs (.delivered vote :: certs.map .certified) d =
      if d = vote.headerDigest then {vote.validator} else ∅ := by
  have hdelivered : deliveredVotes (.delivered vote :: certs.map .certified) = [vote] :=
    congrArg (vote :: ·) (deliveredVotes_certified certs)
  rw [voters, hdelivered]
  by_cases hd : d = vote.headerDigest
  · subst hd
    simp [hvalid]
  · have hne : ¬ vote.headerDigest = d := fun heq => hd heq.symm
    simp [hd, hne]

theorem step_vote_counted (h : s.Counted vs me log) (callback : CertSink κ CS) (vote : Vote)
    (env : PrimaryEnv) :
    Counted vs me (step callback s (.vote vote, env)).1
      (log ++ (step callback s (.vote vote, env)).2) := by
  cases hvalid : vs.verifySignature vote.validator vote.headerDigest vote.signature with
  | true =>
    have hpre : certifiedCertificates log ++ ((s.sink, []) : κ × List Certificate).2 =
        certifiedCertificates log := List.append_nil _
    have hcounting := h.counting
    rw [← hpre] at hcounting
    have hcast := Primary.handleVote_cast hcounting h.running hvalid callback s.certStore
      env.votes env.now
    rw [hpre] at hcast
    refine h.cast _ _ hcast (fun hd => ?_) ?_ ?_ (voters_delivered vs hvalid _)
    · exact ⟨vote, rfl, Primary.bufferedVotes_handleVote h.counting h.running hvalid
        (h.fresh _ hd).1 callback s.certStore env.votes env.now⟩
    · exact createdHeaders_certified _
    · exact certifiedCertificates_certified _
  | false =>
    have hignored : s.primary.handleVote s.certStore callback.logged (s.sink, []) vote
        env.votes env.now = (none, s.primary, s.certStore, (s.sink, [])) := by
      rw [Primary.handleVote, h.running, h.counting.sound.validatorSet, hvalid]
      rfl
    have hstep : step callback s (.vote vote, env) = (s, [.delivered vote]) := by
      show ((withFormed _).1, _) = _
      rw [hignored]
      rfl
    rw [hstep]
    refine h.quiet rfl rfl (fun d => ?_) _ _ _ _
    by_cases hd : vote.headerDigest = d
    · subst hd
      simp [voters, deliveredVotes, hvalid]
    · simp [voters, deliveredVotes, hd]

/-! ## Headers

A new header opens a ballot. Votes that came before it are taken from the buffer and cast at once.
-/

omit [CertificateStore CS] [SliceSort] in
theorem Counted.opens (h : s.Counted vs me log) {header : Header} {p : Primary}
    {certs : List Certificate} (certStore : CS) (sink : κ)
    (hfresh : header.digest ∉ createdDigests log)
    (hopens : Primary.Opens vs (createdHeaders log) header s.primary
      (certifiedCertificates log) p (certifiedCertificates log ++ certs)) :
    Counted vs me { primary := p, certStore, sink }
      (log ++ (certs.map .certified ++ [.created header])) := by
  have hheaders : createdHeaders (log ++ (certs.map .certified ++ [.created header])) =
      createdHeaders log ++ [header] := by
    rw [createdHeaders_append, createdHeaders_append, createdHeaders_certified]
    rfl
  have hdigests : ∀ d, d ∈ createdDigests (log ++ (certs.map .certified ++
      [.created header])) ↔ d ∈ createdDigests log ∨ d = header.digest := by
    intro d
    rw [createdDigests, hheaders, List.map_append, List.mem_append, List.map_singleton,
      List.mem_singleton]
    rfl
  have hcerts : certifiedCertificates (log ++ (certs.map .certified ++ [.created header])) =
      certifiedCertificates log ++ certs := by
    rw [certifiedCertificates_append, certifiedCertificates_append,
      certifiedCertificates_certified]
    exact congrArg _ (List.append_nil certs)
  have hvoters : ∀ d, voters vs (log ++ (certs.map .certified ++ [.created header])) d =
      voters vs log d := by
    intro d
    rw [voters, deliveredVotes_append, deliveredVotes_append, deliveredVotes_certified]
    exact congrArg _ (congrArg _ (congrArg _ (List.append_nil _)))
  obtain ⟨batchDigests, vt, round, pendingVotes, hframe, hothers⟩ := hopens.frame
  refine ⟨by rw [hframe]; exact h.running, by rw [hframe]; exact h.self, ?_, fun d => ?_,
    fun d hd => ?_, fun d hexp hd => ?_, fun d hexp hd => ?_⟩
  · rw [hheaders, hcerts]
    exact hopens.counting
  · rw [hcerts]
    obtain ⟨b, hb⟩ := h.ballot d
    by_cases hne : d = header.digest
    · subst hne
      exact ⟨_, hopens.tallied (h.fresh _ hfresh)⟩
    · exact ⟨_, hopens.others d b hne hb⟩
  · rw [hcerts]
    rw [hdigests, not_or] at hd
    exact hopens.others d _ hd.2 (h.fresh d hd.1)
  · rw [hcerts, hvoters]
    have hexp : .expired d ∉ log := fun hin => hexp (List.mem_append_left _ hin)
    by_cases hne : d = header.digest
    · subst hne
      have htallied := hopens.tallied (h.fresh _ hfresh)
      rw [h.waiting _ hexp hfresh, h.self] at htallied
      exact htallied
    · exact hopens.others d _ hne (h.exact d hexp (((hdigests d).mp hd).resolve_right hne))
  · rw [hvoters]
    have hexp : .expired d ∉ log := fun hin => hexp (List.mem_append_left _ hin)
    rw [hdigests, not_or] at hd
    rw [hframe, Primary.bufferedVotes, hothers d hd.2]
    exact h.waiting d hexp hd.1

theorem step_headerTick_counted (h : s.Counted vs me log) (callback : CertSink κ CS)
    (hasAckQuorum : Hash → Bool) (env : PrimaryEnv)
    (hnew : HeadersDistinct s log (.headerTick hasAckQuorum, env)) :
    Counted vs me (step callback s (.headerTick hasAckQuorum, env)).1
      (log ++ (step callback s (.headerTick hasAckQuorum, env)).2) := by
  have hpre : certifiedCertificates log ++ ((s.sink, []) : κ × List Certificate).2 =
      certifiedCertificates log := List.append_nil _
  have hcounting := h.counting
  rw [← hpre] at hcounting
  rcases Primary.tryCreateHeader_opens hcounting callback s.certStore hasAckQuorum env.votes
    env.now hnew with ⟨rest, hnone⟩ | ⟨header, hheader, hfresh, hopens⟩
  · have hstep : step callback s (.headerTick hasAckQuorum, env) =
        ({ s with primary := { s.primary with batchDigests := rest } }, []) := by
      show ((withFormed _).1, _) = _
      rw [hnone]
      rfl
    rw [hstep]
    exact h.quiet rfl rfl (fun _ => rfl) s.primary.currentRound rest _ _
  · rw [hpre] at hopens
    have hlog : (step callback s (.headerTick hasAckQuorum, env)).2 =
        (s.primary.tryCreateHeader s.certStore callback.logged (s.sink, []) hasAckQuorum
          env.votes env.now).2.2.2.2.map .certified ++ [.created header] := by
      show _ ++ _ = _
      rw [hheader]
      rfl
    rw [hlog]
    exact h.opens _ _ hfresh hopens

/-! ## Clean-up

A clean-up gives up ballots and empties buffers. The marks name what it dropped, and the theorem
is silent about the headers so named. -/

omit [CertificateStore CS] [SliceSort] in
theorem Counted.expire (h : s.Counted vs me log) {p : Primary} {ds : List Hash}
    (certStore : CS) (sink : κ)
    (hcounting : p.Counting vs (createdHeaders log) (certifiedCertificates log))
    (hrunning : p.running = true) (hself : p.validatorID = me)
    (hpending : ∀ d, p.voteTracker.pending.get d = s.primary.voteTracker.pending.get d ∨
      p.voteTracker.pending.get d = none)
    (hkept : ∀ d, d ∉ ds →
      p.voteTracker.pending.get d = s.primary.voteTracker.pending.get d ∧
        p.pendingVotes.get d = s.primary.pendingVotes.get d) :
    Counted vs me { primary := p, certStore, sink } (log ++ ds.map .expired) := by
  have hheaders : createdHeaders (log ++ ds.map .expired) = createdHeaders log := by
    simp [createdHeaders, List.filterMap_map]
  have hcerts : certifiedCertificates (log ++ ds.map .expired) =
      certifiedCertificates log := by
    simp [certifiedCertificates, List.filterMap_map]
  have hvoters : ∀ d, voters vs (log ++ ds.map .expired) d = voters vs log d := by
    intro d
    have hnone : deliveredVotes (ds.map .expired) = [] := by
      simp [deliveredVotes, List.filterMap_map]
    rw [voters, deliveredVotes_append, hnone, List.append_nil]
    rfl
  have hexpired : ∀ d, .expired d ∉ log ++ ds.map .expired → .expired d ∉ log ∧ d ∉ ds :=
    fun d hd => ⟨fun hin => hd (List.mem_append_left _ hin),
      fun hin => hd (List.mem_append_right _ (List.mem_map_of_mem hin))⟩
  refine ⟨hrunning, hself, ?_, fun d => ?_, fun d hd => ?_, fun d hexp hd => ?_,
    fun d hexp hd => ?_⟩
  · rw [hheaders, hcerts]
    exact hcounting
  · rw [hcerts]
    obtain ⟨b, hb⟩ := h.ballot d
    rcases hpending d with hsame | hnone
    · exact ⟨b, hb.congr hsame rfl⟩
    · cases b with
      | absent | opened => exact ⟨.absent, hnone, hb.2⟩
      | passed => exact ⟨.passed, hnone, hb.2⟩
  · rw [createdDigests, hheaders] at hd
    rw [hcerts]
    have habsent := h.fresh d hd
    rcases hpending d with hsame | hnone
    · exact habsent.congr hsame rfl
    · exact ⟨hnone, habsent.2⟩
  · obtain ⟨hexp, hd'⟩ := hexpired d hexp
    rw [createdDigests, hheaders] at hd
    rw [hcerts, hvoters]
    exact (h.exact d hexp hd).congr (hkept d hd').1 rfl
  · obtain ⟨hexp, hd'⟩ := hexpired d hexp
    rw [createdDigests, hheaders] at hd
    rw [hvoters, Primary.bufferedVotes, (hkept d hd').2]
    exact h.waiting d hexp hd

theorem step_cleanup_counted (h : s.Counted vs me log) (callback : CertSink κ CS)
    (env : PrimaryEnv) :
    Counted vs me (step callback s (.cleanup, env)).1
      (log ++ (step callback s (.cleanup, env)).2) := by
  have hcounting := h.counting
  have hdropped : ∀ {V : Type} {f : Hash → V → Bool} {m : GoMap Hash V} {d : Hash},
      d ∉ m.keys.filter (fun d => !(m.filter f).has d) → (m.filter f).get d = m.get d := by
    intro V f m d hd
    rcases GoMap.get_filter_cases f m d with hsame | hnone
    · exact hsame
    · cases hget : m.get d with
      | none => exact hnone
      | some v =>
        refine absurd (List.mem_filter.mpr ⟨GoMap.mem_keys.mpr ?_, ?_⟩) hd
        · exact GoMap.has_iff.mpr ⟨v, hget⟩
        · rw [GoMap.has, hnone]
          rfl
  refine h.expire _ _ ⟨hcounting.sound.cleanupPendingVotes _,
    hcounting.tracker.removeTimedOut _, hcounting.seen, fun d ph hd => ?_,
    hcounting.proper⟩ h.running h.self (fun d => GoMap.get_filter_cases _ _ d) fun d hd => ?_
  · exact hcounting.tracked d ph (VoteTracker.get_removeTimedOut hd)
  · rw [List.mem_append, not_or] at hd
    exact ⟨hdropped hd.1, hdropped hd.2⟩

theorem step_counted (h : s.Counted vs me log) (callback : CertSink κ CS)
    {ev : PrimaryEvent × PrimaryEnv} (hok : HeadersDistinct s log ev) :
    Counted vs me (step callback s ev).1 (log ++ (step callback s ev).2) := by
  obtain ⟨event, env⟩ := ev
  cases event with
  | addBatchDigest digest => exact h.quiet rfl rfl (fun _ => rfl) _ _ _ _
  | headerTick hasAckQuorum => exact step_headerTick_counted h callback hasAckQuorum env hok
  | vote vote => exact step_vote_counted h callback vote env
  | header header available =>
    have hquiet : ∀ new : List PrimaryMark, createdHeaders new = [] →
        certifiedCertificates new = [] → (∀ d, voters vs new d = ∅) →
        s.Counted vs me (log ++ new) := fun new hcreated hcertified hvoters =>
      h.quiet hcreated hcertified hvoters s.primary.currentRound s.primary.batchDigests
        s.certStore s.sink
    unfold step
    dsimp only
    split
    · exact hquiet _ rfl rfl fun _ => rfl
    · exact hquiet _ rfl rfl fun _ => rfl
  | certificate cert =>
    obtain ⟨⟨round, hround⟩, -⟩ := s.primary.handleCertificate_eq s.certStore cert
    unfold step
    dsimp only
    rw [hround]
    exact h.quiet rfl rfl (fun _ => rfl) round s.primary.batchDigests _ _
  | advanceRound =>
    obtain ⟨round, hround⟩ := s.primary.tryAdvanceRound_eq s.certStore
    unfold step
    rw [hround]
    exact h.quiet rfl rfl (fun _ => rfl) round s.primary.batchDigests _ _
  | cleanup => exact step_cleanup_counted h callback env
  | restart => exact absurd hok (by simp [HeadersDistinct])

/-- In every run of a primary that is a validator and makes headers with different
digests: one certificate for a header at most, all of them proper, and one for exactly
those headers a quorum has voted for, clean-up aside. -/
theorem certificate_once {signer : Signer} {cfg : PrimaryConfig} {callback : CertSink κ CS}
    (hself : ∃ v, vs.getByIndex me = some v ∧ v.publicKey = signer.publicKey)
    (h : Run.Reach (Started me signer cfg vs) (step callback) HeadersDistinct s log) :
    (∀ header ∈ createdHeaders log,
      ((certifiedCertificates log).map Certificate.digest).count header.digest ≤ 1) ∧
    (∀ cert ∈ certifiedCertificates log,
      cert.header ∈ createdHeaders log ∧ cert.Proper vs) ∧
    (∀ header ∈ createdHeaders log, .expired header.digest ∉ log →
      (header.digest ∈ (certifiedCertificates log).map Certificate.digest ↔
        vs.quorum ≤ (insert me (voters vs log header.digest)).card)) := by
  have hcounted : s.Counted vs me log := h.invariant
    (I := fun s log => Counted vs me s log) (fun _ hs => started_counted hs hself)
    (fun _ _ _ hI hok => step_counted hI callback hok)
  refine ⟨fun header _ => ?_, fun cert hcert => ?_, fun header hheader hexp => ?_⟩
  · obtain ⟨b, hb⟩ := hcounted.ballot header.digest
    cases b with
    | absent => exact Nat.le_of_eq (hb.2.trans rfl) |>.trans (Nat.zero_le 1)
    | opened voters => exact Nat.le_of_eq hb.2 |>.trans (Nat.zero_le 1)
    | passed => exact Nat.le_of_eq hb.2
  · exact (hcounted.counting.proper cert hcert).symm
  · have hexact := hcounted.exact header.digest hexp (List.mem_map_of_mem hheader)
    rw [← List.count_pos_iff]
    unfold Ballot.after at hexact
    split at hexact
    · next hq => exact ⟨fun _ => hq, fun _ => by rw [hexact.2]; exact Nat.one_pos⟩
    · next hq =>
        refine ⟨fun hpos => ?_, fun hle => absurd hle hq⟩
        rw [hexact.2] at hpos
        exact absurd hpos (Nat.lt_irrefl 0)

end PrimarySystem

section

open IdealScheme

def secondTickHeader : Header := idealHeader 0 0 [] [] 2

/-- Validator `1` votes before the header is there, and again afterwards. -/
def earlyVote : List PrimaryEvent :=
  [.vote (idealVote secondTickHeader.digest 1), .headerTick fun _ => true,
    .vote (idealVote secondTickHeader.digest 1), .vote (idealVote secondTickHeader.digest 2)]

theorem certificate_once_early_vote :
    ∃ (s : PrimarySystem Unit MemoryCertificateStore) (log : List PrimaryMark),
      Run.Reach
        (PrimarySystem.Started 0 (idealSigner 0) idealPrimaryConfig (idealValidators 4 0))
        (PrimarySystem.step fun k certStore _ => (k, certStore))
        PrimarySystem.HeadersDistinct s log ∧
      PrimaryMark.createdHeaders log = [secondTickHeader] ∧
      secondTickHeader.digest ∈
        (PrimaryMark.certifiedCertificates log).map Certificate.digest ∧
      ((PrimaryMark.certifiedCertificates log).map Certificate.digest).count
        secondTickHeader.digest ≤ 1 := by
  have hok : Run.AllOk (PrimarySystem.step fun k certStore _ => (k, certStore))
      PrimarySystem.HeadersDistinct (idealPrimary ()) [] (idealPrimaryRun earlyVote) := by
    decide +kernel
  have hstart : PrimarySystem.Started 0 (idealSigner 0) idealPrimaryConfig
      (idealValidators 4 0) (idealPrimary ()) := rfl
  have hrun := reach_idealPrimaryExec hstart hok
  have hcreated : PrimaryMark.createdHeaders (idealPrimaryExec
      (fun k certStore _ => (k, certStore)) () earlyVote).2 = [secondTickHeader] := by
    decide +kernel
  have hquorum : (idealValidators 4 0).quorum ≤ (insert 0 (PrimaryMark.voters
      (idealValidators 4 0) (idealPrimaryExec
        (fun k certStore _ => (k, certStore)) () earlyVote).2 secondTickHeader.digest)).card := by
    decide +kernel
  have hexpired : .expired secondTickHeader.digest ∉ (idealPrimaryExec
      (fun k certStore _ => (k, certStore)) () earlyVote).2 := by
    decide +kernel
  generalize idealPrimaryExec (fun k certStore _ => (k, certStore)) () earlyVote = run
    at hrun hcreated hquorum hexpired
  have hself : ∃ v, (idealValidators 4 0).getByIndex 0 = some v ∧
      v.publicKey = (idealSigner 0).publicKey := ⟨_, rfl, by decide +kernel⟩
  obtain ⟨honce, -, hexact⟩ := PrimarySystem.certificate_once hself hrun
  have hmem : secondTickHeader ∈ PrimaryMark.createdHeaders run.2 := by
    rw [hcreated]
    exact List.mem_cons_self
  exact ⟨run.1, run.2, hrun, hcreated, (hexact _ hmem hexpired).mpr hquorum, honce _ hmem⟩

end

end DagMempool
