import DagMempool.Proofs.VoteIndexes

/-!
# Evidence of double voting

A validator votes twice if it votes for two headers of one author and round. The tracker keeps a
validator's votes for all headers, but compares a vote only with the one the validator cast for
the same header, so that what it records as evidence is a second signature under the same vote,
and nothing else. Two votes for conflicting headers go unnoticed; the evidence is right only
where nobody does either.
-/

namespace DagMempool

inductive VotingCall where
  | trackHeader (header : Header)
  | recordVote (vote : Vote) (quorum : Nat) (order : IterOrder Vote)

/-- Two of the votes recorded are by the validator, for headers with different digests and the
same author and round. -/
def VotedForConflicting (log : List (Header × Vote)) (validator : UInt16) : Prop :=
  ∃ p ∈ log, ∃ q ∈ log, p.2.validator = validator ∧ q.2.validator = validator ∧
    p.2.headerDigest ≠ q.2.headerDigest ∧ p.1.author = q.1.author ∧ p.1.round = q.1.round

/-- Two of the votes recorded are by the validator, for one header and with different
signatures. -/
def SignedTwice (log : List (Header × Vote)) (validator : UInt16) : Prop :=
  ∃ p ∈ log, ∃ q ∈ log, p.2.validator = validator ∧ q.2.validator = validator ∧
    p.2.headerDigest = q.2.headerDigest ∧ p.2.signature ≠ q.2.signature

theorem SignedTwice.append {log : List (Header × Vote)} {validator : UInt16}
    (h : SignedTwice log validator) (more : List (Header × Vote)) :
    SignedTwice (log ++ more) validator := by
  obtain ⟨p, hp, q, hq, hrest⟩ := h
  exact ⟨p, List.mem_append_left more hp, q, List.mem_append_left more hq, hrest⟩

namespace VoteTracker

variable {vt : VoteTracker} {log : List (Header × Vote)}

/-- There is evidence against the validator. -/
def Accuses (vt : VoteTracker) (validator : UInt16) : Prop :=
  ∃ e ∈ vt.getDoubleVoteEvidence, e.validatorID = validator

/-- What is evidence, given the votes recorded so far with their headers: the tracker remembers
a vote for each validator and header that was voted for, and accuses who signed twice. -/
structure Evident (vt : VoteTracker) (log : List (Header × Vote)) : Prop where
  opened : vt.closed = false
  agrees : vt.Agrees
  remembers : ∀ p ∈ log, ∃ v, vt.rememberedVote p.2.validator p.2.headerDigest = some v
  recorded : ∀ {validator digest v}, vt.rememberedVote validator digest = some v →
    v.validator = validator ∧ v.headerDigest = digest ∧ ∃ header, (header, v) ∈ log
  accuses : ∀ validator, vt.Accuses validator ↔ SignedTwice log validator
  sameHeader : ∀ e ∈ vt.getDoubleVoteEvidence, e.vote1.headerDigest = e.vote2.headerDigest

theorem evident_new (timeout : Int) : (new timeout).Evident [] where
  opened := rfl
  agrees := agrees_new timeout
  remembers := by simp
  recorded h := absurd h (by simp [rememberedVote, new])
  accuses validator := by simp [Accuses, SignedTwice, getDoubleVoteEvidence, new]
  sameHeader := by simp [getDoubleVoteEvidence, new]

theorem Evident.trackHeader (h : vt.Evident log) (header : Header) (now : Int) :
    (vt.trackHeader header now).Evident log := by
  have hagrees := h.agrees.trackHeader header now
  obtain ⟨pending, heq⟩ := vt.trackHeader_frame header now
  rw [heq] at hagrees ⊢
  exact ⟨h.opened, hagrees, h.remembers, h.recorded, h.accuses, h.sameHeader⟩

/-! ## Recording a vote

A vote is a validator's first for its header, and then it is remembered; or a second one, and then
its signature is compared with that of the first. -/

section

theorem rememberedVote_set_empty {validator : UInt16}
    (h : vt.validatorVotes.get validator = none) (other : UInt16) (digest : Hash) :
    { vt with validatorVotes := vt.validatorVotes.set validator ∅ }.rememberedVote other digest =
      vt.rememberedVote other digest := by
  unfold rememberedVote
  rw [GoMap.get_set]
  split
  · next heq =>
      rw [heq, h]
      exact GoMap.get_empty digest
  · rfl

theorem Evident.signedTwice_append (h : vt.Evident log) {vote first : Vote} (header : Header)
    (hfirst : vt.rememberedVote vote.validator vote.headerDigest = some first)
    (validator : UInt16) :
    SignedTwice (log ++ [(header, vote)]) validator ↔
      SignedTwice log validator ∨
        first.signature ≠ vote.signature ∧ vote.validator = validator := by
  obtain ⟨hvalidator, hdigest, header', hmem⟩ := h.recorded hfirst
  constructor
  · -- A pair with the new vote in it: the other one or the first one is signed differently.
    have hpair : ∀ q ∈ log, q.2.validator = vote.validator →
        q.2.headerDigest = vote.headerDigest → q.2.signature ≠ vote.signature →
        vote.validator = validator → SignedTwice log validator ∨
          first.signature ≠ vote.signature ∧ vote.validator = validator := by
      intro q hq hqv hqd hqs hv
      by_cases hsig : first.signature = vote.signature
      · refine .inl ⟨q, hq, (header', first), hmem, hqv.trans hv, hvalidator.trans hv,
          hqd.trans hdigest.symm, ?_⟩
        rw [hsig]
        exact hqs
      · exact .inr ⟨hsig, hv⟩
    rintro ⟨p, hp, q, hq, hpv, hqv, hd, hs⟩
    rcases List.mem_append.mp hp with hp | hp
    · rcases List.mem_append.mp hq with hq | hq
      · exact .inl ⟨p, hp, q, hq, hpv, hqv, hd, hs⟩
      · obtain rfl := List.mem_singleton.mp hq
        exact hpair p hp (hpv.trans hqv.symm) hd hs hqv
    · obtain rfl := List.mem_singleton.mp hp
      rcases List.mem_append.mp hq with hq | hq
      · exact hpair q hq (hqv.trans hpv.symm) hd.symm (Ne.symm hs) hpv
      · obtain rfl := List.mem_singleton.mp hq
        exact absurd rfl hs
  · rintro (hold | ⟨hsig, hv⟩)
    · exact hold.append _
    · exact ⟨(header', first), List.mem_append_left _ hmem, (header, vote), by simp,
        hvalidator.trans hv, hv, hdigest, hsig⟩

theorem Evident.signedTwice_append_first (h : vt.Evident log) (header : Header)
    (hfirst : vt.rememberedVote vote.validator vote.headerDigest = none) (validator : UInt16) :
    SignedTwice (log ++ [(header, vote)]) validator ↔ SignedTwice log validator := by
  have hnone : ∀ q ∈ log, ¬ (q.2.validator = vote.validator ∧
      q.2.headerDigest = vote.headerDigest) := by
    rintro q hq ⟨hv, hd⟩
    obtain ⟨v, hv'⟩ := h.remembers q hq
    rw [hv, hd, hfirst] at hv'
    cases hv'
  refine ⟨?_, fun hold => hold.append _⟩
  rintro ⟨p, hp, q, hq, hpv, hqv, hd, hs⟩
  rcases List.mem_append.mp hp with hp | hp
  · rcases List.mem_append.mp hq with hq | hq
    · exact ⟨p, hp, q, hq, hpv, hqv, hd, hs⟩
    · obtain rfl := List.mem_singleton.mp hq
      exact absurd ⟨hpv.trans hqv.symm, hd⟩ (hnone p hp)
  · obtain rfl := List.mem_singleton.mp hp
    rcases List.mem_append.mp hq with hq | hq
    · exact absurd ⟨hqv.trans hpv.symm, hd.symm⟩ (hnone q hq)
    · obtain rfl := List.mem_singleton.mp hq
      exact absurd rfl hs

variable [SliceSort] {vote : Vote} {ph : PendingHeader}

theorem recordVote_again {vote first : Vote} (hopen : vt.closed = false)
    (hph : vt.pending.get vote.headerDigest = some ph)
    (hfirst : vt.rememberedVote vote.validator vote.headerDigest = some first) (quorum : Nat)
    (order : IterOrder Vote) (now : Int) :
    (vt.recordVote vote quorum order now).2 =
      if first.signature = vote.signature then vt
      else { vt with doubleVotes := vt.doubleVotes ++
        [{ validatorID := vote.validator, headerID := vote.headerDigest, vote1 := first,
           vote2 := vote, timestamp := now }] } := by
  obtain ⟨votes, hvotes, hget⟩ := rememberedVote_eq_some.mp hfirst
  unfold recordVote
  rw [hopen, if_neg (by simp), hph]
  rw [hvotes]
  dsimp only
  rw [hget]

theorem rememberedVote_addVote (vt : VoteTracker) (hnew : ¬ ph.votes.has vote.validator = true)
    (quorum : Nat) (order : IterOrder Vote) (validator : UInt16) (digest : Hash) :
    (vt.addVote ph vote quorum order).2.rememberedVote validator digest =
      if validator = vote.validator ∧ digest = vote.headerDigest then some vote
      else vt.rememberedVote validator digest := by
  unfold addVote
  rw [if_neg hnew]
  unfold rememberedVote
  rw [GoMap.get_set]
  by_cases hvalidator : validator = vote.validator
  · subst hvalidator
    rw [if_pos rfl, Option.bind_some, GoMap.get_set]
    by_cases hdigest : digest = vote.headerDigest
    · rw [if_pos hdigest, if_pos ⟨rfl, hdigest⟩]
    · rw [if_neg hdigest, if_neg fun hboth => hdigest hboth.2]
      cases vt.validatorVotes.get vote.validator with
      | none => exact GoMap.get_empty digest
      | some votes => rfl
  · rw [if_neg hvalidator, if_neg fun hboth => hvalidator hboth.1]

theorem doubleVotes_addVote (vt : VoteTracker) (ph : PendingHeader) (vote : Vote) (quorum : Nat)
    (order : IterOrder Vote) :
    (vt.addVote ph vote quorum order).2.doubleVotes = vt.doubleVotes := by
  unfold addVote
  split
  · rfl
  · rfl

theorem recordVote_first (h : vt.Agrees) (hopen : vt.closed = false)
    (hph : vt.pending.get vote.headerDigest = some ph)
    (hfirst : vt.rememberedVote vote.validator vote.headerDigest = none) (quorum : Nat)
    (order : IterOrder Vote) (now : Int) :
    (vt.recordVote vote quorum order now).2.doubleVotes = vt.doubleVotes ∧
      ∀ validator digest,
        (vt.recordVote vote quorum order now).2.rememberedVote validator digest =
          if validator = vote.validator ∧ digest = vote.headerDigest then some vote
          else vt.rememberedVote validator digest := by
  have hnew : ¬ ph.votes.has vote.validator = true := by
    have hcounted := h vote.validator vote.headerDigest
    rw [hfirst, countedVote, hph, Option.bind_some] at hcounted
    simp [GoMap.has, ← hcounted]
  unfold recordVote
  rw [if_neg (by simp [hopen]), hph]
  cases hvotes : vt.validatorVotes.get vote.validator with
  | none =>
    refine ⟨doubleVotes_addVote _ ph vote quorum order, fun validator digest => ?_⟩
    rw [rememberedVote_addVote _ hnew, rememberedVote_set_empty hvotes]
  | some votes =>
    have hget : votes.get vote.headerDigest = none := by
      rw [rememberedVote, hvotes] at hfirst
      exact hfirst
    dsimp only
    rw [hget]
    exact ⟨vt.doubleVotes_addVote ph vote quorum order,
      vt.rememberedVote_addVote hnew quorum order⟩

theorem Evident.recordVote_again (h : vt.Evident log) {vote first : Vote}
    (hph : vt.pending.get vote.headerDigest = some ph)
    (hfirst : vt.rememberedVote vote.validator vote.headerDigest = some first) (quorum : Nat)
    (order : IterOrder Vote) (now : Int) :
    (vt.recordVote vote quorum order now).2.Evident (log ++ [(ph.header, vote)]) := by
  have hremembers : ∀ p ∈ log ++ [(ph.header, vote)],
      ∃ v, vt.rememberedVote p.2.validator p.2.headerDigest = some v := by
    intro p hp
    rcases List.mem_append.mp hp with hp | hp
    · exact h.remembers p hp
    · obtain rfl := List.mem_singleton.mp hp
      exact ⟨first, hfirst⟩
  have hrecorded : ∀ {validator digest v}, vt.rememberedVote validator digest = some v →
      v.validator = validator ∧ v.headerDigest = digest ∧
        ∃ header, (header, v) ∈ log ++ [(ph.header, vote)] := by
    intro validator digest v hv
    obtain ⟨hvalidator, hdigest, header, hmem⟩ := h.recorded hv
    exact ⟨hvalidator, hdigest, header, List.mem_append_left _ hmem⟩
  have htwice := h.signedTwice_append ph.header hfirst
  rw [VoteTracker.recordVote_again h.opened hph hfirst quorum order now]
  split
  · next hsig =>
      refine ⟨h.opened, h.agrees, hremembers, hrecorded, fun validator => ?_, h.sameHeader⟩
      rw [h.accuses, htwice]
      simp [hsig]
  · next hsig =>
      refine ⟨h.opened, h.agrees, hremembers, hrecorded, fun validator => ?_, ?_⟩
      · rw [htwice, ← h.accuses]
        unfold Accuses getDoubleVoteEvidence
        simp [hsig]
      · intro e he
        rcases List.mem_append.mp he with he | he
        · exact h.sameHeader e he
        · obtain rfl := List.mem_singleton.mp he
          exact (h.recorded hfirst).2.1

theorem Evident.recordVote_first (h : vt.Evident log)
    (hph : vt.pending.get vote.headerDigest = some ph)
    (hfirst : vt.rememberedVote vote.validator vote.headerDigest = none) (quorum : Nat)
    (order : IterOrder Vote) (now : Int) :
    (vt.recordVote vote quorum order now).2.Evident (log ++ [(ph.header, vote)]) := by
  obtain ⟨hevidence, hvotes⟩ :=
    VoteTracker.recordVote_first h.agrees h.opened hph hfirst quorum order now
  have hopen := vt.recordVote_closed vote quorum order now
  refine ⟨hopen.trans h.opened, h.agrees.recordVote vote quorum order now, fun p hp => ?_,
    fun {validator digest v} hv => ?_, fun validator => ?_, fun e he => ?_⟩
  · rw [hvotes]
    split
    · exact ⟨vote, rfl⟩
    · next hnot =>
        rcases List.mem_append.mp hp with hp | hp
        · exact h.remembers p hp
        · obtain rfl := List.mem_singleton.mp hp
          exact absurd ⟨rfl, rfl⟩ hnot
  · rw [hvotes] at hv
    split at hv
    · next hboth =>
        obtain rfl := Option.some.inj hv
        exact ⟨hboth.1.symm, hboth.2.symm, ph.header, by simp⟩
    · obtain ⟨hvalidator, hdigest, header, hmem⟩ := h.recorded hv
      exact ⟨hvalidator, hdigest, header, List.mem_append_left _ hmem⟩
  · rw [h.signedTwice_append_first ph.header hfirst, ← h.accuses]
    unfold Accuses getDoubleVoteEvidence
    rw [hevidence]
  · unfold getDoubleVoteEvidence at he
    rw [hevidence] at he
    exact h.sameHeader e he

/-- One call at a time, with the votes that are recorded and the headers they are for. -/
def poll (vt : VoteTracker) : VotingCall × Int → VoteTracker × List (Header × Vote)
  | (.trackHeader header, now) => (vt.trackHeader header now, [])
  | (.recordVote vote quorum order, now) =>
    ((vt.recordVote vote quorum order now).2,
      (vt.pending.get vote.headerDigest).toList.map fun ph => (ph.header, vote))

theorem Evident.poll (h : vt.Evident log) (c : VotingCall × Int) :
    (vt.poll c).1.Evident (log ++ (vt.poll c).2) := by
  obtain ⟨c, now⟩ := c
  cases c with
  | trackHeader header =>
    show (vt.trackHeader header now).Evident (log ++ [])
    rw [List.append_nil]
    exact h.trackHeader header now
  | recordVote vote quorum order =>
    show (vt.recordVote vote quorum order now).2.Evident
      (log ++ (vt.pending.get vote.headerDigest).toList.map fun ph => (ph.header, vote))
    cases hph : vt.pending.get vote.headerDigest with
    | none =>
      have hsame : (vt.recordVote vote quorum order now).2 = vt := by
        simp [VoteTracker.recordVote, h.opened, hph]
      rw [hsame]
      simpa using h
    | some ph =>
      cases hfirst : vt.rememberedVote vote.validator vote.headerDigest with
      | none => exact h.recordVote_first hph hfirst quorum order now
      | some first => exact h.recordVote_again hph hfirst quorum order now

theorem Evident.exec (h : vt.Evident log) (calls : List (VotingCall × Int)) :
    (Run.exec VoteTracker.poll vt log calls).1.Evident
      (Run.exec VoteTracker.poll vt log calls).2 :=
  Run.exec_invariant (I := Evident) (fun _ _ c h => h.poll c) h calls

/-- Whatever headers are tracked and votes recorded, there is evidence against a validator
exactly if it signed a vote for one header in two ways. So the evidence names who voted for
conflicting headers, and nothing for a single header, exactly if nobody did either. -/
theorem double_vote_evidence_iff (timeout : Int) (calls : List (VotingCall × Int)) :
    let run := Run.exec poll (new timeout) [] calls
    (∀ validator, run.1.Accuses validator ↔ SignedTwice run.2 validator) ∧
    (((∀ validator, run.1.Accuses validator ↔ VotedForConflicting run.2 validator) ∧
        ∀ e ∈ run.1.getDoubleVoteEvidence, e.vote1.headerDigest ≠ e.vote2.headerDigest) ↔
      ∀ validator, ¬ VotedForConflicting run.2 validator ∧ ¬ SignedTwice run.2 validator) := by
  have hinv := (evident_new timeout).exec calls
  refine ⟨hinv.accuses, ?_, fun hnone => ⟨fun validator => ?_, fun e he => ?_⟩⟩
  · rintro ⟨hiff, hdiffer⟩ validator
    -- Evidence is about one header, so where that is excluded there is none.
    have hno : ¬ (Run.exec poll (new timeout) [] calls).1.Accuses validator := by
      rintro ⟨e, he, -⟩
      exact hdiffer e he (hinv.sameHeader e he)
    exact ⟨mt (hiff validator).mpr hno, mt (hinv.accuses validator).mpr hno⟩
  · exact iff_of_false (mt (hinv.accuses validator).mp (hnone validator).2) (hnone validator).1
  · exact absurd ((hinv.accuses e.validatorID).mp ⟨e, he, rfl⟩) (hnone e.validatorID).2

end

end VoteTracker

section

attribute [local instance] SliceSort.stable

/-- Signatures for which there are two ways to sign. -/
@[reducible] def twoWayCrypto : Crypto where
  sha256 := idealCrypto.sha256
  ed25519Verify pk digest sig := sig == pk ++ digest || sig == digest ++ pk

/-- Another header of the same author and round as `votedHeader`. -/
def rivalHeader : Header := idealHeader 0 1 [] [] 7

def voteForBoth : List (VotingCall × Int) :=
  [(.trackHeader votedHeader, 0), (.trackHeader rivalHeader, 1),
    (.recordVote (idealVote votedHeader.digest 1) 3 .listed, 2),
    (.recordVote (idealVote rivalHeader.digest 1) 3 .listed, 3)]

/-- Validator `1` votes for one header, and signs the vote in the other way as well. -/
def voteSignedTwice : List (VotingCall × Int) :=
  [(.trackHeader votedHeader, 0), (.recordVote (idealVote votedHeader.digest 1) 3 .listed, 1),
    (.recordVote { idealVote votedHeader.digest 1 with
      signature := votedHeader.digest ++ BitVec.ofNat 256 1 } 3 .listed, 2)]

/-- All votes are signed as they should be. There is no evidence against who voted for two
headers, and evidence against who voted for one. -/
theorem evidence_misses_conflict :
    (let run := Run.exec VoteTracker.poll (.new 10) [] voteForBoth
     (∀ p ∈ run.2, @Vote.verify twoWayCrypto p.2 (BitVec.ofNat 256 1) = true) ∧
       VotedForConflicting run.2 1 ∧ ¬ run.1.Accuses 1) ∧
    (let run := Run.exec VoteTracker.poll (.new 10) [] voteSignedTwice
     (∀ p ∈ run.2, @Vote.verify twoWayCrypto p.2 (BitVec.ofNat 256 1) = true) ∧
       ¬ VotedForConflicting run.2 1 ∧ run.1.Accuses 1) := by
  unfold VotedForConflicting VoteTracker.Accuses
  decide +kernel

end

end DagMempool
