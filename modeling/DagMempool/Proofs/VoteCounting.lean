import DagMempool.Lib.Ballot
import DagMempool.Primary.Step
import DagMempool.Proofs.CertificateWrites
import DagMempool.Proofs.VerifiedDag

/-!
# Counting votes

For each header it makes, a primary holds a ballot. It is opened when the header is
tracked, the primary casts the first vote and then those that came before the header,
and each vote that is handled casts one more. Recording a vote in the tracker is
`Ballot.cast`, and the certificate is formed by the vote with which the ballot
passes; the header is dropped from the tracker then, so nothing more is cast.

The tracker looks a validator up in two places before it counts a vote: an index by
validator and header, and the votes of the header. For a header whose digest is new
they agree, because only recording a vote writes the index. Headers with equal
digests would not have this: a clean-up drops a header from the tracker and leaves
the index as it is.
-/

namespace DagMempool

/-! ## The tracker

The voters of a header are the keys of its votes. A vote is counted if the index by validator has
none for this header, which is so exactly if its votes have none either. -/

/-- The validators whose votes are counted. -/
def PendingHeader.voters (ph : PendingHeader) : Finset UInt16 := ph.votes.keys.toFinset

def PendingHeader.counted (ph : PendingHeader) (vote : Vote) : PendingHeader :=
  if ph.votes.has vote.validator then ph
  else { ph with votes := ph.votes.set vote.validator vote }

variable {i : UInt16} {b : Ballot UInt16}

namespace PendingHeader

theorem mem_voters {ph : PendingHeader} : i ∈ ph.voters ↔ ph.votes.has i = true := by
  rw [voters, List.mem_toFinset, GoMap.mem_keys]

variable (ph : PendingHeader) (vote : Vote)

theorem card_voters : ph.voters.card = ph.votes.len := by
  rw [voters, List.toFinset_card_of_nodup ph.votes.nodup_keys, GoMap.keys, List.length_map,
    GoMap.len]

theorem header_counted : (ph.counted vote).header = ph.header := by
  unfold counted
  split <;> rfl

theorem voters_set (i : UInt16) (vote : Vote) :
    { ph with votes := ph.votes.set i vote }.voters = insert i ph.voters := by
  ext j
  rw [mem_voters, GoMap.has_set, Finset.mem_insert, mem_voters]

theorem voters_counted : (ph.counted vote).voters = insert vote.validator ph.voters := by
  unfold counted
  split
  · next hhas => exact (Finset.insert_eq_of_mem (mem_voters.mpr hhas)).symm
  · exact ph.voters_set _ _

end PendingHeader

namespace VoteTracker

/-- The index has a vote of the validator for the header. -/
def seen (vt : VoteTracker) (i : UInt16) (d : Hash) : Bool :=
  ((vt.validatorVotes.get i).getD ∅).has d

/-- The index and the votes of the headers agree. -/
structure Counting (vt : VoteTracker) : Prop where
  opened : vt.closed = false
  keyed : ∀ d ph i vote, vt.pending.get d = some ph → ph.votes.get i = some vote →
    vote.validator = i
  indexed : ∀ i d ph, vt.seen i d = true → vt.pending.get d = some ph →
    ph.votes.has i = true

theorem seen_set {vt : VoteTracker} {i j : UInt16} {d : Hash} {votes : GoMap Hash Vote}
    (h : { vt with validatorVotes := vt.validatorVotes.set j votes }.seen i d = true) :
    vt.seen i d = true ∨ i = j ∧ votes.has d = true := by
  unfold seen at h ⊢
  rw [GoMap.get_set] at h
  split at h
  · next hi => exact .inr ⟨hi, h⟩
  · exact .inl h

theorem counting_new (timeout : Int) : (new timeout).Counting :=
  ⟨rfl, fun d ph i v hd => absurd hd (by simp [new]), fun i d ph hs => absurd hs (by
    simp [seen, new, GoMap.has])⟩

theorem seen_trackHeader (vt : VoteTracker) (header : Header) (now : Int) (i : UInt16)
    (d : Hash) : (vt.trackHeader header now).seen i d = vt.seen i d := by
  unfold VoteTracker.trackHeader
  split
  · rfl
  · split <;> rfl

variable [SliceSort] {vt : VoteTracker} {vote : Vote} {ph : PendingHeader}

/-- The vote is counted, and a certificate is formed if that makes a quorum. -/
structure Counts (vt : VoteTracker) (vote : Vote) (ph : PendingHeader) (quorum : Nat)
    (order : IterOrder Vote) (result : Option Certificate × VoteTracker) : Prop where
  formed : result.1 = formIfQuorum (ph.counted vote) quorum order
  pending : ∀ d, result.2.pending.get d =
    if d = vote.headerDigest then some (ph.counted vote) else vt.pending.get d
  closed : result.2.closed = vt.closed
  seen : ∀ i d, result.2.seen i d = true →
    vt.seen i d = true ∨ i = vote.validator ∧ d = vote.headerDigest

theorem addVote_counts (vt : VoteTracker)
    (hph : vt.pending.get vote.headerDigest = some ph) (quorum : Nat)
    (order : IterOrder Vote) :
    vt.Counts vote ph quorum order (vt.addVote ph vote quorum order) := by
  unfold addVote
  split
  · next hhas =>
      have hcounted : ph.counted vote = ph := by rw [PendingHeader.counted, if_pos hhas]
      refine ⟨by rw [hcounted], fun d => ?_, rfl, fun i d hseen => .inl hseen⟩
      rw [hcounted]
      split
      · next hd => rw [hd, hph]
      · rfl
  · next hhas =>
      have hcounted : ph.counted vote =
          { ph with votes := ph.votes.set vote.validator vote } := by
        rw [PendingHeader.counted, if_neg hhas]
      refine ⟨by rw [hcounted], fun d => ?_, rfl, fun i d hseen => ?_⟩
      · rw [hcounted, GoMap.get_set]
      · rcases seen_set hseen with hold | ⟨hi, hvotes⟩
        · exact .inl hold
        · rcases GoMap.has_set.mp hvotes with hd | hold
          · exact .inr ⟨hi, hd⟩
          · exact .inl (by rw [hi]; exact hold)

theorem recordVote_counts (h : vt.Counting)
    (hph : vt.pending.get vote.headerDigest = some ph) (quorum : Nat)
    (order : IterOrder Vote) (now : Int) :
    vt.Counts vote ph quorum order (vt.recordVote vote quorum order now) := by
  unfold recordVote
  split
  · next hclosed => exact absurd (h.opened.symm.trans hclosed) (by simp)
  · rw [hph]
    dsimp only
    split
    · have hadd := addVote_counts
        { vt with validatorVotes := vt.validatorVotes.set vote.validator ∅ } hph quorum order
      refine ⟨hadd.formed, hadd.pending, hadd.closed, fun i d hs => ?_⟩
      rcases hadd.seen i d hs with hold | hnew
      · rcases seen_set hold with hold | ⟨-, hempty⟩
        · exact .inl hold
        · exact absurd hempty (by simp [GoMap.has])
      · exact .inr hnew
    · next existing hexisting =>
        split
        · exact addVote_counts vt hph quorum order
        · next old hold =>
            -- The index has the vote, so the header has counted it.
            have hhas : ph.votes.has vote.validator = true := by
              refine h.indexed _ _ ph ?_ hph
              rw [seen, hexisting]
              exact GoMap.has_iff.mpr ⟨old, hold⟩
            have hcounted : ph.counted vote = ph := by
              rw [PendingHeader.counted, if_pos hhas]
            have hpending : ∀ d, vt.pending.get d =
                if d = vote.headerDigest then some ph else vt.pending.get d := by
              intro d
              split
              · next hd => rw [hd, hph]
              · rfl
            split
            · exact ⟨by rw [hcounted], by rw [hcounted]; exact hpending, rfl,
                fun _ _ hs => .inl hs⟩
            · exact ⟨by rw [hcounted], by rw [hcounted]; exact hpending, rfl,
                fun _ _ hs => .inl hs⟩

theorem recordVote_of_not_tracked (hph : vt.pending.get vote.headerDigest = none)
    (quorum : Nat) (order : IterOrder Vote) (now : Int) :
    vt.recordVote vote quorum order now = (none, vt) := by
  unfold recordVote
  rw [hph]
  split <;> rfl

omit [SliceSort] in
theorem keyed_counted (hkeyed : ∀ i v, ph.votes.get i = some v → v.validator = i) {v : Vote}
    (hv : (ph.counted vote).votes.get i = some v) : v.validator = i := by
  unfold PendingHeader.counted at hv
  split at hv
  · exact hkeyed i v hv
  · rcases GoMap.get_set_eq_some hv with ⟨rfl, rfl⟩ | ⟨-, hold⟩
    · rfl
    · exact hkeyed i v hold

theorem Counts.counting {quorum : Nat} {order : IterOrder Vote}
    {result : Option Certificate × VoteTracker}
    (hcounts : vt.Counts vote ph quorum order result) (h : vt.Counting)
    (hph : vt.pending.get vote.headerDigest = some ph) : result.2.Counting := by
  refine ⟨hcounts.closed.trans h.opened, fun d ph' i v hd hv => ?_, fun i d ph' hs hd => ?_⟩
  · rw [hcounts.pending] at hd
    split at hd
    · cases hd
      exact keyed_counted (fun j w hw => h.keyed _ ph j w hph hw) hv
    · exact h.keyed d ph' i v hd hv
  · rw [hcounts.pending] at hd
    split at hd
    · next hdigest =>
        cases hd
        rw [← PendingHeader.mem_voters, PendingHeader.voters_counted, Finset.mem_insert,
          PendingHeader.mem_voters]
        rcases hcounts.seen i d hs with hold | ⟨hi, -⟩
        · rw [hdigest] at hold
          exact .inr (h.indexed i _ ph hold hph)
        · exact .inl hi
    · next hdigest =>
        rcases hcounts.seen i d hs with hold | ⟨-, hd'⟩
        · exact h.indexed i d ph' hold hd
        · exact absurd hd' hdigest

omit [SliceSort] in
theorem seen_removeHeader {digest d : Hash} (h : (vt.removeHeader digest).seen i d = true) :
    vt.seen i d = true := by
  unfold seen removeHeader at h
  rw [GoMap.get_filter] at h
  cases hget : (vt.validatorVotes.map fun _ votes => votes.del digest).get i with
  | none =>
    rw [hget] at h
    exact absurd h (by simp [GoMap.has])
  | some votes =>
    obtain ⟨votes', hvotes', rfl⟩ := GoMap.get_map_eq_some.mp hget
    rw [hget] at h
    rw [seen, hvotes']
    obtain ⟨vote, hvote⟩ := GoMap.has_iff.mp h
    by_cases hlen : (votes'.del digest).len != 0
    · rw [Option.filter_some, if_pos hlen] at hvote
      exact GoMap.has_iff.mpr ⟨vote, (GoMap.get_del_eq_some.mp hvote).2⟩
    · rw [Option.filter_some, if_neg hlen] at hvote
      cases hvote

omit [SliceSort] in
theorem Counting.removeHeader (h : vt.Counting) (digest : Hash) :
    (vt.removeHeader digest).Counting :=
  ⟨h.opened, fun d ph i v hd => h.keyed d ph i v (get_removeHeader hd),
    fun i d ph hs hd => h.indexed i d ph (seen_removeHeader hs) (get_removeHeader hd)⟩

omit [SliceSort] in
theorem Counting.removeTimedOut (h : vt.Counting) (now : Int) :
    (vt.removeTimedOut now).2.Counting :=
  ⟨h.opened, fun d ph i v hd => h.keyed d ph i v (get_removeTimedOut hd),
    fun i d ph hs hd => h.indexed i d ph hs (get_removeTimedOut hd)⟩

omit [SliceSort] in
theorem Counting.trackHeader (h : vt.Counting) {header : Header}
    (hnew : ∀ i, vt.seen i header.digest = false) (now : Int) :
    (vt.trackHeader header now).Counting := by
  refine ⟨?_, fun d ph i v hd hv => ?_, fun i d ph hs hd => ?_⟩
  · unfold VoteTracker.trackHeader
    split
    · exact h.opened
    · split <;> exact h.opened
  · rcases get_trackHeader hd with hold | ⟨-, rfl⟩
    · exact h.keyed d ph i v hold hv
    · cases hv
  · rw [seen_trackHeader] at hs
    rcases get_trackHeader hd with hold | ⟨rfl, -⟩
    · exact h.indexed i d ph hs hold
    · exact absurd (hs.symm.trans (hnew i)) (by simp)

end VoteTracker

/-- A certificate as it is meant to be: a quorum of votes and no more, in order, of
different validators, and accepted by `Verify`. -/
structure Certificate.Proper [Crypto] (vs : SimpleValidatorSet) (c : Certificate) : Prop where
  quorum : c.votes.length = vs.quorum
  sorted : c.votes.Pairwise fun a b => a.validator < b.validator
  distinct : (c.votes.map (·.validator)).Nodup
  verified : c.verify vs = .ok ()

theorem VoteTracker.formCertificate_proper [Crypto] [SliceSort] {vs : SimpleValidatorSet}
    {d : Hash} {ph : PendingHeader} (hsound : ph.Sound vs d)
    (hkeyed : ∀ i v, ph.votes.get i = some v → v.validator = i)
    (hquorum : vs.quorum ≤ ph.votes.len) (order : IterOrder Vote) :
    (formCertificate ph vs.quorum order).Proper vs := by
  have hpos : 0 < vs.quorum := Nat.succ_pos _
  have hperm : (formCertificate ph vs.quorum order).votes.Perm
      ((order.arrange ph.votes.values).take (max vs.quorum 1)) := SliceSort.perm _ _
  have hlen : ph.votes.values.length = ph.votes.len := List.length_map _
  have hdistinct : ((formCertificate ph vs.quorum order).votes.map (·.validator)).Nodup := by
    refine (hperm.map _).nodup_iff.mpr (((List.take_sublist _ _).map _).nodup ?_)
    refine ((order.perm _).map _).nodup_iff.mpr ?_
    rw [GoMap.map_values_eq_keys hkeyed]
    exact ph.votes.nodup_keys
  have hsorted : (formCertificate ph vs.quorum order).votes.Pairwise
      fun a b => a.validator.toNat ≤ b.validator.toNat :=
    SliceSort.sorted_key (fun v : Vote => v.validator.toNat) _
  refine ⟨?_, ?_, hdistinct, Certificate.verify_eq_ok.mpr (hsound.verified hquorum order)⟩
  · rw [hperm.length_eq, List.length_take, order.length_arrange, hlen]
    omega
  · refine ((List.pairwise_map.mp hdistinct).and hsorted).imp fun {a b} hab => ?_
    refine UInt16.lt_iff_toNat_lt.mpr (Nat.lt_of_le_of_ne hab.2 fun heq => ?_)
    exact hab.1 (UInt16.toNat_inj.mp heq)

/-! ## The primary

`Cast` says what some votes for one header do: they are cast on its ballot, and no other ballot
and no other buffer is touched. It is transitive, and recording one vote, the primary's own and
those in the buffer are instances of it. -/

namespace Primary

theorem count_digest_append (certs : List Certificate) (cert : Certificate) (d : Hash) :
    ((certs ++ [cert]).map Certificate.digest).count d =
      (certs.map Certificate.digest).count d + if d = cert.digest then 1 else 0 := by
  rw [List.map_append, List.count_append, List.map_singleton, List.count_singleton]
  congr 1
  by_cases h : d = cert.digest
  · simp [h]
  · rw [if_neg h, if_neg (by simpa using fun heq => h heq.symm)]

variable [Crypto]

/-- What makes recording a vote count it, for a primary that has made these headers and
formed these certificates. -/
structure Counting (vs : SimpleValidatorSet) (created : List Header) (p : Primary)
    (certs : List Certificate) : Prop where
  sound : p.Sound vs
  tracker : p.voteTracker.Counting
  seen : ∀ i d, p.voteTracker.seen i d = true → d ∈ created.map (·.digest)
  tracked : ∀ d ph, p.voteTracker.pending.get d = some ph → ph.header ∈ created
  proper : ∀ c ∈ certs, c.Proper vs ∧ c.header ∈ created

/-- The ballot of a header, as the tracker and the certificates show it. -/
def Tallied (p : Primary) (certs : List Certificate) (d : Hash) : Ballot UInt16 → Prop
  | .absent =>
    p.voteTracker.pending.get d = none ∧ (certs.map Certificate.digest).count d = 0
  | .opened voters =>
    (∃ ph, p.voteTracker.pending.get d = some ph ∧ ph.voters = voters) ∧
      (certs.map Certificate.digest).count d = 0
  | .passed =>
    p.voteTracker.pending.get d = none ∧ (certs.map Certificate.digest).count d = 1

variable {vs : SimpleValidatorSet} {created : List Header} {p p' p'' : Primary}
  {certs certs' certs'' : List Certificate} {d : Hash}

theorem Tallied.congr (h : p.Tallied certs d b)
    (hpending : p'.voteTracker.pending.get d = p.voteTracker.pending.get d)
    (hcerts : (certs'.map Certificate.digest).count d = (certs.map Certificate.digest).count d) :
    p'.Tallied certs' d b := by
  cases b with
  | absent => exact ⟨hpending.trans h.1, hcerts.trans h.2⟩
  | opened voters =>
    obtain ⟨⟨ph, hph, hvoters⟩, hnone⟩ := h
    exact ⟨⟨ph, hpending.trans hph, hvoters⟩, hcerts.trans hnone⟩
  | passed => exact ⟨hpending.trans h.1, hcerts.trans h.2⟩

theorem Tallied.cast_of_not_tracked (h : p.Tallied certs d b)
    (hnone : p.voteTracker.pending.get d = none) (quorum : Nat) (voter : UInt16) :
    b.cast quorum voter = b := by
  cases b with
  | absent => rfl
  | opened voters =>
    obtain ⟨⟨ph, hph, -⟩, -⟩ := h
    exact absurd (hph.symm.trans hnone) (by simp)
  | passed => rfl

theorem Tallied.castAll_of_not_tracked (h : p.Tallied certs d b)
    (hnone : p.voteTracker.pending.get d = none) (quorum : Nat) (voters : List UInt16) :
    b.castAll quorum voters = b := by
  induction voters with
  | nil => rfl
  | cons voter voters ih =>
    have hcast := h.cast_of_not_tracked hnone quorum voter
    rw [Ballot.castAll, List.foldl_cons, hcast]
    exact ih

/-- Votes for one header were cast: only its ballot moved, and only its buffer. -/
structure Cast (vs : SimpleValidatorSet) (created : List Header) (d : Hash)
    (voters : List UInt16) (p : Primary) (certs : List Certificate) (p' : Primary)
    (certs' : List Certificate) : Prop where
  counting : p'.Counting vs created certs'
  frame : ∃ voteTracker currentRound pendingVotes,
    p' = { p with voteTracker, currentRound, pendingVotes } ∧
      ∀ d', d' ≠ d → pendingVotes.get d' = p.pendingVotes.get d'
  tallied : ∀ b, p.Tallied certs d b → p'.Tallied certs' d (b.castAll vs.quorum voters)
  others : ∀ d' b, d' ≠ d → p.Tallied certs d' b → p'.Tallied certs' d' b

theorem Cast.trans {voters voters' : List UInt16}
    (h : Cast vs created d voters p certs p' certs')
    (h' : Cast vs created d voters' p' certs' p'' certs'') :
    Cast vs created d (voters ++ voters') p certs p'' certs'' := by
  refine ⟨h'.counting, ?_, fun b hb => ?_, fun d' b hne hb => ?_⟩
  · obtain ⟨vt, r, votes, rfl, hvotes⟩ := h.frame
    obtain ⟨vt', r', votes', rfl, hvotes'⟩ := h'.frame
    exact ⟨vt', r', votes', rfl, fun d' hne => (hvotes' d' hne).trans (hvotes d' hne)⟩
  · rw [Ballot.castAll_append]
    exact h'.tallied _ (h.tallied b hb)
  · exact h'.others d' b hne (h.others d' b hne hb)

theorem Counting.frame (h : p.Counting vs created certs) (currentRound : UInt64)
    (batchDigests : List BatchDigest) :
    { p with currentRound, batchDigests }.Counting vs created certs :=
  ⟨⟨h.sound.validatorSet, h.sound.member, h.sound.tracked, h.sound.buffered⟩, h.tracker,
    h.seen, h.tracked, h.proper⟩

theorem Cast.refl (h : p.Counting vs created certs) :
    Cast vs created d [] p certs p certs :=
  ⟨h, ⟨_, _, _, rfl, fun _ _ => rfl⟩, fun _ hb => hb, fun _ _ _ hb => hb⟩

theorem Cast.advance {voters : List UInt16} (h : Cast vs created d voters p certs p' certs')
    (currentRound : UInt64) :
    Cast vs created d voters p certs { p' with currentRound } certs' := by
  refine ⟨h.counting.frame currentRound p'.batchDigests, ?_, h.tallied, h.others⟩
  obtain ⟨vt, r, votes, rfl, hvotes⟩ := h.frame
  exact ⟨vt, currentRound, votes, rfl, hvotes⟩

section

theorem Tallied.of_tracked (h : p.Tallied certs d b) (hph : p.voteTracker.pending.get d = some ph) :
    b = .opened ph.voters ∧ (certs.map Certificate.digest).count d = 0 := by
  cases b with
  | absent => exact absurd (hph.symm.trans h.1) (by simp)
  | opened voters =>
    obtain ⟨⟨ph', hph', rfl⟩, hzero⟩ := h
    rw [hph] at hph'
    cases hph'
    exact ⟨rfl, hzero⟩
  | passed => exact absurd (hph.symm.trans h.1) (by simp)

theorem Counting.track (h : p.Counting vs created certs)
    (hauthor : vs.verifySignature header.author header.digest header.signature = true)
    (hnew : header.digest ∉ created.map (·.digest)) (rest : List BatchDigest) (now : Int) :
    { p with
      batchDigests := rest
      voteTracker := p.voteTracker.trackHeader header now }.Counting vs
        (created ++ [header]) certs := by
  have hsound : { p with voteTracker := p.voteTracker.trackHeader header now }.Sound vs :=
    h.sound.trackHeader hauthor
  refine ⟨⟨hsound.validatorSet, hsound.member, hsound.tracked, hsound.buffered⟩,
    h.tracker.trackHeader (fun i => ?_) now, fun i d hs => ?_, fun d ph hd => ?_,
    fun c hc => ⟨(h.proper c hc).1, List.mem_append_left _ (h.proper c hc).2⟩⟩
  · cases hs : p.voteTracker.seen i header.digest with
    | false => rfl
    | true => exact absurd (h.seen i _ hs) hnew
  · rw [VoteTracker.seen_trackHeader] at hs
    rw [List.map_append]
    exact List.mem_append_left _ (h.seen i d hs)
  · rcases VoteTracker.get_trackHeader hd with hold | ⟨-, rfl⟩
    · exact List.mem_append_left _ (h.tracked d ph hold)
    · exact List.mem_append_right _ List.mem_cons_self

theorem Counting.not_tracked (h : p.Counting vs created certs)
    (hd : d ∉ created.map (·.digest)) : p.voteTracker.pending.get d = none := by
  cases hph : p.voteTracker.pending.get d with
  | none => rfl
  | some ph =>
    refine absurd (List.mem_map.mpr ⟨ph.header, h.tracked d ph hph, ?_⟩) hd
    exact (h.sound.tracked d ph hph).digest

theorem Counting.get_trackHeader (h : p.Counting vs created certs)
    (hnew : header.digest ∉ created.map (·.digest)) (now : Int) (d : Hash) :
    (p.voteTracker.trackHeader header now).pending.get d =
      if d = header.digest then some { header, votes := ∅, createdAt := now }
      else p.voteTracker.pending.get d := by
  have hnone : p.voteTracker.pending.has header.digest = false := by
    rw [GoMap.has, h.not_tracked hnew]
    rfl
  rw [VoteTracker.trackHeader, h.tracker.opened, hnone]
  exact GoMap.get_set _ _ _ _

variable {κ CS : Type} [CertificateStore CS] [SliceSort] {callback : CertSink κ CS}
  {vote : Vote} {pre : List Certificate}
variable {ph : PendingHeader} {k : κ × List Certificate} {header : Header}

theorem Counting.counted (h : p.Counting vs created certs)
    (hvote : Certificate.VoteOk vs vote.headerDigest vote)
    (hph : p.voteTracker.pending.get vote.headerDigest = some ph) (order : IterOrder Vote)
    (now : Int) :
    { p with voteTracker :=
      (p.voteTracker.recordVote vote p.validatorSet.quorum order now).2 }.Counting
        vs created certs := by
  have hcounts :=
    VoteTracker.recordVote_counts h.tracker hph p.validatorSet.quorum order now
  refine ⟨h.sound.recorded hvote (VoteTracker.recordVote_recorded _ _ _ _ _),
    hcounts.counting h.tracker hph, fun i d hs => ?_, fun d ph' hd => ?_, h.proper⟩
  · rcases hcounts.seen i d hs with hold | ⟨-, rfl⟩
    · exact h.seen i d hold
    · exact List.mem_map.mpr ⟨ph.header, h.tracked _ ph hph, (h.sound.tracked _ ph hph).digest⟩
  · rw [hcounts.pending] at hd
    split at hd
    · cases hd
      rw [PendingHeader.header_counted]
      exact h.tracked _ ph hph
    · exact h.tracked d ph' hd

theorem recordVote_of_tracked (h : p.Counting vs created certs)
    (hph : p.voteTracker.pending.get vote.headerDigest = some ph) (certStore : CS)
    (order : IterOrder Vote) (now : Int) :
    p.recordVote certStore callback.logged k vote order now =
      let voted := { p with voteTracker :=
        (p.voteTracker.recordVote vote p.validatorSet.quorum order now).2 }
      let cert := VoteTracker.formCertificate (ph.counted vote) vs.quorum order
      if vs.quorum ≤ (insert vote.validator ph.voters).card then
        (some cert,
          voted.certificateFormed certStore callback.logged k cert vote.headerDigest)
      else (none, voted, certStore, k) := by
  have hcounts :=
    VoteTracker.recordVote_counts h.tracker hph p.validatorSet.quorum order now
  have hformed := hcounts.formed
  rw [h.sound.validatorSet, VoteTracker.formIfQuorum, ← PendingHeader.card_voters,
    PendingHeader.voters_counted] at hformed
  rw [Primary.recordVote, h.sound.validatorSet, hformed]
  by_cases hq : vs.quorum ≤ (insert vote.validator ph.voters).card
  · simp only [if_pos hq]
  · simp only [if_neg hq]

theorem Counting.formed {voted : Primary} (h : voted.Counting vs created (pre ++ certs))
    (hph : voted.voteTracker.pending.get d = some ph) (hquorum : vs.quorum ≤ ph.votes.len)
    (order : IterOrder Vote) :
    { voted with voteTracker := voted.voteTracker.removeHeader d }.Counting vs created
        (pre ++ (certs ++ [VoteTracker.formCertificate ph vs.quorum order])) := by
  refine ⟨h.sound.removeHeader d, h.tracker.removeHeader d, ?_, ?_, fun c hc => ?_⟩
  · exact fun i d' hs => h.seen i d' (VoteTracker.seen_removeHeader hs)
  · exact fun d' ph' hd => h.tracked d' ph' (VoteTracker.get_removeHeader hd)
  · rw [← List.append_assoc] at hc
    rcases List.mem_append.mp hc with hold | hnew
    · exact h.proper c hold
    · rw [List.mem_singleton.mp hnew]
      exact ⟨VoteTracker.formCertificate_proper (h.sound.tracked d ph hph)
        (fun i v => h.tracker.keyed d ph i v hph) hquorum order, h.tracked d ph hph⟩

theorem recordVote_cast (h : p.Counting vs created (pre ++ k.2))
    (hvote : Certificate.VoteOk vs vote.headerDigest vote) (callback : CertSink κ CS)
    (certStore : CS) (order : IterOrder Vote) (now : Int) :
    Cast vs created vote.headerDigest [vote.validator] p (pre ++ k.2)
      (p.recordVote certStore callback.logged k vote order now).2.1
      (pre ++ (p.recordVote certStore callback.logged k vote order now).2.2.2.2) := by
  cases hph : p.voteTracker.pending.get vote.headerDigest with
  | none =>
    have hnone : p.recordVote certStore callback.logged k vote order now =
        (none, p, certStore, k) := by
      rw [Primary.recordVote, VoteTracker.recordVote_of_not_tracked hph]
    rw [hnone]
    refine ⟨h, ⟨_, _, _, rfl, fun _ _ => rfl⟩, fun b hb => ?_, fun d' b _ hb => hb⟩
    show p.Tallied _ _ (b.cast vs.quorum vote.validator)
    rw [hb.cast_of_not_tracked hph]
    exact hb
  | some ph =>
    have hpending := (VoteTracker.recordVote_counts h.tracker hph p.validatorSet.quorum
      order now).pending
    have hcounted := h.counted hvote hph order now
    rw [recordVote_of_tracked h hph]
    generalize (p.voteTracker.recordVote vote p.validatorSet.quorum order now).2 = vt
      at hpending hcounted ⊢
    have hself := (hpending vote.headerDigest).trans (if_pos rfl)
    have hothers : ∀ d, d ≠ vote.headerDigest →
        vt.pending.get d = p.voteTracker.pending.get d :=
      fun d hne => (hpending d).trans (if_neg hne)
    by_cases hq : vs.quorum ≤ (insert vote.validator ph.voters).card
    · simp only [if_pos hq]
      have hlen : vs.quorum ≤ (ph.counted vote).votes.len := by
        rw [← PendingHeader.card_voters, PendingHeader.voters_counted]
        exact hq
      have hdigest : (VoteTracker.formCertificate (ph.counted vote) vs.quorum order).digest =
          vote.headerDigest := (hcounted.sound.tracked _ _ hself).digest
      refine ⟨hcounted.formed hself hlen order, ⟨_, _, _, rfl, fun _ _ => rfl⟩, fun b hb => ?_,
        fun d' b hne hb => ?_⟩
      · obtain ⟨rfl, hzero⟩ := hb.of_tracked hph
        have hpassed : (Ballot.opened ph.voters).castAll vs.quorum [vote.validator] =
            .passed := if_pos hq
        rw [hpassed]
        refine ⟨(GoMap.get_del _ _ _).trans (if_pos rfl), ?_⟩
        show ((pre ++ (k.2 ++ [_])).map Certificate.digest).count vote.headerDigest = 1
        rw [← List.append_assoc, count_digest_append, hzero, if_pos hdigest.symm]
      · refine hb.congr (((GoMap.get_del _ _ _).trans (if_neg hne)).trans (hothers d' hne)) ?_
        show ((pre ++ (k.2 ++ [_])).map Certificate.digest).count d' = _
        rw [← List.append_assoc, count_digest_append,
          if_neg fun heq => hne (heq.trans hdigest), Nat.add_zero]
    · simp only [if_neg hq]
      refine ⟨hcounted, ⟨_, _, _, rfl, fun _ _ => rfl⟩, fun b hb => ?_, fun d' b hne hb => ?_⟩
      · obtain ⟨rfl, hzero⟩ := hb.of_tracked hph
        have hopen : (Ballot.opened ph.voters).castAll vs.quorum [vote.validator] =
            .opened (insert vote.validator ph.voters) := if_neg hq
        rw [hopen]
        exact ⟨⟨_, hself, ph.voters_counted vote⟩, hzero⟩
      · exact hb.congr (hothers d' hne) rfl

theorem recordVote_removes {certStore : CS} {order : IterOrder Vote} {now : Int}
    {cert : Certificate}
    (h : (p.recordVote certStore callback.logged k vote order now).1 = some cert) :
    (p.recordVote certStore callback.logged k vote order now).2.1.voteTracker.pending.get
      vote.headerDigest = none := by
  obtain ⟨vt, -, heq | ⟨ph, -, -, heq⟩⟩ :=
    p.recordVote_cases certStore callback.logged k vote order now
  · rw [heq] at h
    cases h
  · rw [heq]
    exact (GoMap.get_del _ _ _).trans (if_pos rfl)

/-- The buffered votes are cast. The loop stops at the one with which the ballot
passes, and the rest would not have counted. -/
theorem recordVotes_cast {votes : List Vote} (h : p.Counting vs created (pre ++ k.2))
    (hvotes : ∀ vote ∈ votes, Certificate.VoteOk vs d vote) (callback : CertSink κ CS)
    (certStore : CS) (order : IterOrder Vote) (now : Int) :
    Cast vs created d (votes.map (·.validator)) p (pre ++ k.2)
      (p.recordVotes certStore callback.logged k order now votes).1
      (pre ++ (p.recordVotes certStore callback.logged k order now votes).2.2.2) := by
  induction votes generalizing p certStore k with
  | nil => exact Cast.refl h
  | cons vote votes ih =>
    obtain ⟨hdigest, hsigned⟩ := hvotes vote List.mem_cons_self
    subst hdigest
    have hone := recordVote_cast h ⟨rfl, hsigned⟩ callback certStore order now
    unfold Primary.recordVotes
    dsimp only
    split
    · next cert hcert =>
        refine ⟨hone.counting, hone.frame, fun b hb => ?_, hone.others⟩
        have hcast := hone.tallied b hb
        have hrest := hcast.castAll_of_not_tracked (recordVote_removes hcert) vs.quorum
          (votes.map (·.validator))
        rw [List.map_cons, ← List.singleton_append, Ballot.castAll_append, hrest]
        exact hcast
    · exact hone.trans (ih hone.counting
        (fun v hv => hvotes v (List.mem_cons_of_mem _ hv)) _)

theorem selfVote_cast (h : p.Counting vs created (pre ++ k.2)) {sig : Signature}
    (hsign : p.signer.sign header.digest = .ok sig) (callback : CertSink κ CS) (certStore : CS)
    (order : IterOrder Vote) (now : Int) :
    Cast vs created header.digest [p.validatorID] p (pre ++ k.2)
      (p.selfVote certStore callback.logged k header order now).1
      (pre ++ (p.selfVote certStore callback.logged k header order now).2.2.2) := by
  obtain ⟨vote, hvote, hvalidator, hdigest, hsigned⟩ : ∃ vote,
      (Vote.new header.digest p.validatorID).sign p.signer = .ok vote ∧
        vote.validator = p.validatorID ∧ Certificate.VoteOk vs header.digest vote := by
    have hsign' : p.signer.sign (Vote.new header.digest p.validatorID).headerDigest =
        .ok sig := hsign
    refine ⟨_, by rw [Vote.sign, hsign'], rfl, rfl, h.sound.signed hsign⟩
  have hone := recordVote_cast h ⟨rfl, hdigest ▸ hsigned⟩ callback certStore order now
  rw [hdigest, hvalidator] at hone
  unfold Primary.selfVote
  rw [hvote]
  dsimp only
  split
  · exact hone
  · obtain ⟨round, hround⟩ := tryAdvanceRound_eq
      (p.recordVote certStore callback.logged k _ order now).2.1
      (p.recordVote certStore callback.logged k _ order now).2.2.1
    rw [hround]
    exact hone.advance round

def bufferedVotes (p : Primary) (d : Hash) : List Vote :=
  ((p.pendingVotes.get d).map (·.votes)).getD []

theorem processPendingVotes_cast (h : p.Counting vs created (pre ++ k.2))
    (callback : CertSink κ CS) (certStore : CS) (order : IterOrder Vote) (now : Int) :
    Cast vs created d ((p.bufferedVotes d).map (·.validator)) p (pre ++ k.2)
      (p.processPendingVotes certStore callback.logged k d order now).1
      (pre ++ (p.processPendingVotes certStore callback.logged k d order now).2.2.2) := by
  unfold Primary.processPendingVotes bufferedVotes
  split
  · next hnone =>
      rw [hnone]
      exact Cast.refl h
  · next entry hentry =>
      rw [hentry]
      have hdel : { p with pendingVotes := p.pendingVotes.del d }.Counting vs created
          (pre ++ k.2) :=
        ⟨⟨h.sound.validatorSet, h.sound.member, h.sound.tracked, fun d' entry' hd' =>
          h.sound.buffered d' entry' (GoMap.get_del_eq_some.mp hd').2⟩, h.tracker, h.seen,
          h.tracked, h.proper⟩
      have hcast := recordVotes_cast hdel (h.sound.buffered d entry hentry) callback certStore
        order now
      refine ⟨hcast.counting, ?_, hcast.tallied, hcast.others⟩
      obtain ⟨vt, r, votes, heq, hvotes⟩ := hcast.frame
      refine ⟨vt, r, votes, heq, fun d' hne => (hvotes d' hne).trans ?_⟩
      exact (GoMap.get_del _ _ _).trans (if_neg hne)

theorem selfVote_pendingVotes (p : Primary) (certStore : CS) (sink : CertSink κ CS) (k : κ)
    (header : Header) (order : IterOrder Vote) (now : Int) :
    (p.selfVote certStore sink k header order now).1.pendingVotes = p.pendingVotes := by
  unfold Primary.selfVote
  split
  · rfl
  · dsimp only
    split
    · exact recordVote_pendingVotes ..
    · obtain ⟨round, hround⟩ := tryAdvanceRound_eq
        (p.recordVote certStore sink k _ order now).2.1
        (p.recordVote certStore sink k _ order now).2.2.1
      rw [hround]
      exact recordVote_pendingVotes ..

theorem ownVotes_cast (h : p.Counting vs created (pre ++ k.2)) {sig : Signature}
    (hsign : p.signer.sign header.digest = .ok sig) (callback : CertSink κ CS) (certStore : CS)
    (order : IterOrder Vote) (now : Int) :
    let voted := p.selfVote certStore callback.logged k header order now
    let counted := voted.1.processPendingVotes voted.2.1 callback.logged voted.2.2
      header.digest order now
    Cast vs created header.digest
      (p.validatorID :: (p.bufferedVotes header.digest).map (·.validator)) p (pre ++ k.2)
      counted.1 (pre ++ counted.2.2.2) := by
  intro voted counted
  have hself : Cast vs created header.digest [p.validatorID] p (pre ++ k.2) voted.1
    (pre ++ voted.2.2.2) := selfVote_cast h hsign callback certStore order now
  have hbuffered : voted.1.bufferedVotes header.digest = p.bufferedVotes header.digest := by
    rw [bufferedVotes, selfVote_pendingVotes]
    rfl
  have hearly : Cast vs created header.digest
      ((voted.1.bufferedVotes header.digest).map (·.validator)) voted.1 (pre ++ voted.2.2.2)
      counted.1 (pre ++ counted.2.2.2) :=
    processPendingVotes_cast hself.counting callback voted.2.1 order now
  rw [hbuffered] at hearly
  exact hself.trans hearly

/-- What a tick that makes a header does to the ballots. -/
structure Opens (vs : SimpleValidatorSet) (created : List Header) (header : Header)
    (p : Primary) (certs : List Certificate) (p' : Primary) (certs' : List Certificate) :
    Prop where
  counting : p'.Counting vs (created ++ [header]) certs'
  frame : ∃ batchDigests voteTracker currentRound pendingVotes,
    p' = { p with batchDigests, voteTracker, currentRound, pendingVotes } ∧
      ∀ d, d ≠ header.digest → pendingVotes.get d = p.pendingVotes.get d
  tallied : p.Tallied certs header.digest .absent → p'.Tallied certs' header.digest
    (.after vs.quorum
      (insert p.validatorID ((p.bufferedVotes header.digest).map (·.validator)).toFinset))
  others : ∀ d b, d ≠ header.digest → p.Tallied certs d b → p'.Tallied certs' d b

theorem tryCreateHeader_opens (h : p.Counting vs created (pre ++ k.2)) (callback : CertSink κ CS)
    (certStore : CS) (hasAckQuorum : Hash → Bool) (order : IterOrder Vote) (now : Int)
    (hnew : ∀ header ∈ p.nextHeader certStore hasAckQuorum now,
      header.digest ∉ created.map (·.digest)) :
    (∃ rest, p.tryCreateHeader certStore callback.logged k hasAckQuorum order now =
      (none, { p with batchDigests := rest }, certStore, k)) ∨
    ∃ header,
      (p.tryCreateHeader certStore callback.logged k hasAckQuorum order now).1 =
        some header ∧
      header.digest ∉ created.map (·.digest) ∧
      Opens vs created header p (pre ++ k.2)
        (p.tryCreateHeader certStore callback.logged k hasAckQuorum order now).2.1
        (pre ++
          (p.tryCreateHeader certStore callback.logged k hasAckQuorum order now).2.2.2.2) := by
  rcases p.tryCreateHeader_cases certStore callback.logged k hasAckQuorum order now with
    ⟨rest, -, hnone⟩ | ⟨digests, rest, header, hsplit, hbuild, heq⟩
  · exact .inl ⟨rest, hnone⟩
  · have hnew := hnew header (by rw [nextHeader, hsplit]; exact hbuild)
    obtain ⟨sig, hsign, hheader⟩ := buildHeader_eq_some hbuild
    have hsign : p.signer.sign header.digest = .ok sig := by
      rw [hheader]
      exact hsign
    have htracked := h.track (buildHeader_signed (h.frame p.currentRound rest).sound hbuild)
      hnew rest now
    have hcast := ownVotes_cast htracked hsign callback certStore order now
    have hpending := h.get_trackHeader hnew now
    rw [heq]
    refine .inr ⟨header, rfl, hnew, hcast.counting, ?_, fun hb => ?_, fun d b hne hb => ?_⟩
    · obtain ⟨vt, r, votes, hframe, hvotes⟩ := hcast.frame
      exact ⟨rest, vt, r, votes, hframe, hvotes⟩
    · have hopened := hcast.tallied (.after vs.quorum ∅)
        ⟨⟨_, (hpending header.digest).trans (if_pos rfl), rfl⟩, hb.2⟩
      rw [Ballot.castAll_after, List.toFinset_cons, Finset.union_empty] at hopened
      exact hopened
    · exact hcast.others d b hne (hb.congr ((hpending d).trans (if_neg hne)) rfl)

/-- A valid vote that arrives is cast. If the header is not tracked it is only kept, and
there is no open ballot. -/
theorem handleVote_cast (h : p.Counting vs created (pre ++ k.2)) (hrunning : p.running = true)
    (hvalid : vs.verifySignature vote.validator vote.headerDigest vote.signature = true)
    (callback : CertSink κ CS) (certStore : CS) (order : IterOrder Vote) (now : Int) :
    Cast vs created vote.headerDigest [vote.validator] p (pre ++ k.2)
      (p.handleVote certStore callback.logged k vote order now).2.1
      (pre ++ (p.handleVote certStore callback.logged k vote order now).2.2.2.2) := by
  unfold Primary.handleVote
  rw [hrunning, h.sound.validatorSet, hvalid, if_neg (by simp), if_neg (by simp)]
  split
  · next hnot =>
      have hnone : p.voteTracker.pending.get vote.headerDigest = none := by
        simpa [VoteTracker.hasHeader, GoMap.has] using hnot
      have hsound := h.sound.bufferVote ⟨rfl, hvalid⟩ now
      refine ⟨⟨hsound, h.tracker, h.seen, h.tracked, h.proper⟩,
        ⟨_, _, _, rfl, fun d' hne => GoMap.get_set_ne hne⟩, fun b hb => ?_,
        fun d' b _ hb => hb⟩
      rw [hb.castAll_of_not_tracked hnone]
      exact hb
  · exact recordVote_cast h ⟨rfl, hvalid⟩ callback certStore order now

theorem bufferedVotes_handleVote (h : p.Counting vs created certs) (hrunning : p.running = true)
    (hvalid : vs.verifySignature vote.validator vote.headerDigest vote.signature = true)
    (hnone : p.voteTracker.pending.get vote.headerDigest = none) (callback : CertSink κ CS)
    (certStore : CS) (order : IterOrder Vote) (now : Int) :
    (p.handleVote certStore callback.logged k vote order now).2.1.bufferedVotes
      vote.headerDigest = p.bufferedVotes vote.headerDigest ++ [vote] := by
  have hnot : p.voteTracker.hasHeader vote.headerDigest = false := by
    rw [VoteTracker.hasHeader, GoMap.has, hnone]
    rfl
  unfold Primary.handleVote
  rw [hrunning, h.sound.validatorSet, hvalid, hnot, if_neg (by simp), if_neg (by simp),
    if_pos (by simp)]
  unfold bufferVote bufferedVotes
  rw [GoMap.get_set_self]
  cases p.pendingVotes.get vote.headerDigest with
  | none => rfl
  | some entry => rfl

end

end Primary

end DagMempool
