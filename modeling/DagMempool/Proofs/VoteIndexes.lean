import DagMempool.Lib.Run
import DagMempool.Primary.VoteTracker
import DagMempool.Types.Ideal

/-!
# The two indexes of the vote tracker

Votes are kept twice, by header and by validator. Tracking a header, recording a vote and
removing a header keep the two the same. A header that times out is removed from the first
only; the second then remembers votes for a header that is not tracked, and if the header is
tracked again those validators' votes are taken for repetitions. The indexes agree after
every step of a run exactly if what times out in it never has votes.
-/

namespace DagMempool

inductive VoteTrackerCall where
  | trackHeader (header : Header)
  | recordVote (vote : Vote) (quorum : Nat) (order : IterOrder Vote)
  | removeHeader (digest : Hash)
  | removeTimedOut

namespace VoteTracker

/-- The vote of a validator for a header, by the index of validators. -/
def rememberedVote (vt : VoteTracker) (validator : UInt16) (digest : Hash) : Option Vote :=
  (vt.validatorVotes.get validator).bind (·.get digest)

def countedVote (vt : VoteTracker) (digest : Hash) (validator : UInt16) : Option Vote :=
  (vt.pending.get digest).bind (·.votes.get validator)

def Agrees (vt : VoteTracker) : Prop :=
  ∀ validator digest, vt.rememberedVote validator digest = vt.countedVote digest validator

/-- No header that would be removed has a vote. -/
def ExpiresUnvoted (vt : VoteTracker) (now : Int) : Prop :=
  ∀ digest ph, vt.pending.get digest = some ph → ph.createdAt < now - vt.timeout →
    ∀ validator, ph.votes.get validator = none

section

variable [SliceSort]

/-- One call at a time, with the certificates formed. -/
def call (vt : VoteTracker) : VoteTrackerCall × Int → VoteTracker × List Certificate
  | (.trackHeader header, now) => (vt.trackHeader header now, [])
  | (.recordVote vote quorum order, now) =>
    ((vt.recordVote vote quorum order now).2, (vt.recordVote vote quorum order now).1.toList)
  | (.removeHeader digest, _) => (vt.removeHeader digest, [])
  | (.removeTimedOut, now) => ((vt.removeTimedOut now).2, [])

end

def CallExpiresUnvoted (vt : VoteTracker) (_ : List Certificate) : VoteTrackerCall × Int → Prop
  | (.removeTimedOut, now) => vt.ExpiresUnvoted now
  | _ => True

variable {vt : VoteTracker}

theorem rememberedVote_eq_some {digest : Hash} {validator : UInt16} {vote : Vote} :
    vt.rememberedVote validator digest = some vote ↔
      ∃ votes, vt.validatorVotes.get validator = some votes ∧ votes.get digest = some vote :=
  Option.bind_eq_some_iff

theorem countedVote_trackHeader (vt : VoteTracker) (header : Header) (now : Int) (digest : Hash)
    (validator : UInt16) :
    (vt.trackHeader header now).countedVote digest validator =
      vt.countedVote digest validator := by
  unfold trackHeader
  split
  · rfl
  · split
    · rfl
    · next hnew =>
        have hnone : vt.pending.get header.digest = none := by
          simpa [GoMap.has] using hnew
        unfold countedVote
        rw [GoMap.get_set]
        split
        · next heq =>
            rw [heq, hnone]
            rfl
        · rfl

theorem trackHeader_frame (vt : VoteTracker) (header : Header) (now : Int) :
    ∃ pending, vt.trackHeader header now = { vt with pending } := by
  unfold trackHeader
  split
  · exact ⟨vt.pending, rfl⟩
  · split
    · exact ⟨vt.pending, rfl⟩
    · exact ⟨_, rfl⟩

theorem Agrees.trackHeader (h : vt.Agrees) (header : Header) (now : Int) :
    (vt.trackHeader header now).Agrees := by
  intro validator digest
  rw [countedVote_trackHeader, ← h validator digest]
  obtain ⟨pending, heq⟩ := vt.trackHeader_frame header now
  rw [heq]
  rfl

theorem countedVote_removeHeader (vt : VoteTracker) (removed digest : Hash) (validator : UInt16) :
    (vt.removeHeader removed).countedVote digest validator =
      if digest = removed then none else vt.countedVote digest validator := by
  unfold countedVote removeHeader
  rw [GoMap.get_del]
  split
  · rfl
  · rfl

theorem rememberedVote_removeHeader (vt : VoteTracker) (removed digest : Hash)
    (validator : UInt16) :
    (vt.removeHeader removed).rememberedVote validator digest =
      if digest = removed then none else vt.rememberedVote validator digest := by
  ext vote
  rw [rememberedVote_eq_some]
  unfold removeHeader
  simp only [GoMap.get_filter_eq_some, GoMap.get_map_eq_some]
  constructor
  · rintro ⟨_, ⟨⟨votes, hvotes, rfl⟩, -⟩, hvote⟩
    obtain ⟨hne, hvote⟩ := GoMap.get_del_eq_some.mp hvote
    rw [if_neg hne]
    exact rememberedVote_eq_some.mpr ⟨votes, hvotes, hvote⟩
  · intro hvote
    split at hvote
    · cases hvote
    · next hne =>
        obtain ⟨votes, hvotes, hvote⟩ := rememberedVote_eq_some.mp hvote
        have hkept := GoMap.get_del_eq_some.mpr ⟨hne, hvote⟩
        refine ⟨_, ⟨⟨votes, hvotes, rfl⟩, ?_⟩, hkept⟩
        have hpos := List.length_pos_of_mem (GoMap.get_eq_some.mp hkept)
        simpa [GoMap.len] using Nat.ne_of_gt hpos

theorem Agrees.removeHeader (h : vt.Agrees) (removed : Hash) :
    (vt.removeHeader removed).Agrees := by
  intro validator digest
  rw [rememberedVote_removeHeader, countedVote_removeHeader, h validator digest]

section

theorem Agrees.withValidator (h : vt.Agrees) {validator : UInt16}
    (hnone : vt.validatorVotes.get validator = none) :
    { vt with validatorVotes := vt.validatorVotes.set validator ∅ }.Agrees := by
  intro validator' digest
  have hold := h validator' digest
  unfold rememberedVote countedVote at hold ⊢
  rw [← hold]
  rw [GoMap.get_set]
  split
  · next heq =>
      rw [heq, hnone]
      exact GoMap.get_empty digest
  · rfl

variable [SliceSort]

theorem Agrees.addVote (h : vt.Agrees) {vote : Vote} {ph : PendingHeader}
    (hph : vt.pending.get vote.headerDigest = some ph) (quorum : Nat) (order : IterOrder Vote) :
    (vt.addVote ph vote quorum order).2.Agrees := by
  unfold VoteTracker.addVote
  split
  · exact h
  · intro validator digest
    have hold := h validator digest
    unfold rememberedVote countedVote at hold ⊢
    rw [GoMap.get_set, GoMap.get_set]
    by_cases hvalidator : validator = vote.validator
    · rw [if_pos hvalidator, Option.bind_some, GoMap.get_set]
      by_cases hdigest : digest = vote.headerDigest
      · rw [if_pos hdigest, if_pos hdigest, Option.bind_some, hvalidator, GoMap.get_set_self]
      · rw [if_neg hdigest, if_neg hdigest, ← hold, hvalidator]
        cases vt.validatorVotes.get vote.validator with
        | none => exact GoMap.get_empty digest
        | some votes => rfl
    · rw [if_neg hvalidator, hold]
      by_cases hdigest : digest = vote.headerDigest
      · rw [if_pos hdigest, Option.bind_some, GoMap.get_set_ne hvalidator, hdigest, hph]
        rfl
      · rw [if_neg hdigest]

theorem Agrees.recordVote (h : vt.Agrees) (vote : Vote) (quorum : Nat) (order : IterOrder Vote)
    (now : Int) : (vt.recordVote vote quorum order now).2.Agrees := by
  unfold VoteTracker.recordVote
  split
  · exact h
  · split
    · exact h
    · next ph hph =>
        split
        · next hnone => exact (h.withValidator hnone).addVote hph quorum order
        · split
          · exact h.addVote hph quorum order
          · split
            · exact h
            · exact h

end

/-! ## Time-outs

A clean-up removes headers from one index. The other keeps the votes for them, so the indexes part
exactly if there were any. -/

theorem countedVote_removeTimedOut (vt : VoteTracker) (now : Int) (digest : Hash)
    (validator : UInt16) :
    (vt.removeTimedOut now).2.countedVote digest validator =
      ((vt.pending.get digest).filter fun ph => !decide (ph.createdAt < now - vt.timeout)).bind
        (·.votes.get validator) := by
  unfold countedVote removeTimedOut
  rw [GoMap.get_filter]

theorem Agrees.removeTimedOut_iff (h : vt.Agrees) (now : Int) :
    (vt.removeTimedOut now).2.Agrees ↔ vt.ExpiresUnvoted now := by
  have hremembered : ∀ validator digest,
      (vt.removeTimedOut now).2.rememberedVote validator digest =
        vt.countedVote digest validator := h
  constructor
  · intro hagrees digest ph hph hexpired validator
    have hvote := hagrees validator digest
    rw [hremembered, countedVote_removeTimedOut, countedVote, hph] at hvote
    simpa [Option.filter_some, hexpired] using hvote
  · intro hunvoted validator digest
    rw [hremembered, countedVote_removeTimedOut, countedVote]
    cases hph : vt.pending.get digest with
    | none => rfl
    | some ph =>
      by_cases hexpired : ph.createdAt < now - vt.timeout
      · simpa [Option.filter_some, hexpired] using hunvoted digest ph hph hexpired validator
      · simp [Option.filter_some, hexpired]

theorem agrees_new (timeout : Int) : (new timeout).Agrees := fun _ _ => rfl

variable [SliceSort]

theorem Agrees.call_iff (h : vt.Agrees) (log : List Certificate) (c : VoteTrackerCall × Int) :
    (vt.call c).1.Agrees ↔ vt.CallExpiresUnvoted log c := by
  obtain ⟨c, now⟩ := c
  cases c with
  | trackHeader header => exact iff_of_true (h.trackHeader header now) trivial
  | recordVote vote quorum order => exact iff_of_true (h.recordVote vote quorum order now) trivial
  | removeHeader digest => exact iff_of_true (h.removeHeader digest) trivial
  | removeTimedOut => exact h.removeTimedOut_iff now

theorem closed_call (vt : VoteTracker) (c : VoteTrackerCall × Int) :
    (vt.call c).1.closed = vt.closed := by
  obtain ⟨c, now⟩ := c
  cases c with
  | trackHeader header =>
    show (vt.trackHeader header now).closed = vt.closed
    obtain ⟨pending, heq⟩ := vt.trackHeader_frame header now
    rw [heq]
  | recordVote vote quorum order => exact vt.recordVote_closed vote quorum order now
  | removeHeader digest => rfl
  | removeTimedOut => rfl

theorem closed_exec (vt : VoteTracker) (log : List Certificate)
    (calls : List (VoteTrackerCall × Int)) : (Run.exec call vt log calls).1.closed = vt.closed :=
  Run.exec_invariant (I := fun (vt' : VoteTracker) _ => vt'.closed = vt.closed)
    (fun vt' _ c h => (vt'.closed_call c).trans h) rfl calls

theorem Agrees.exec_iff (h : vt.Agrees) (log : List Certificate)
    (calls : List (VoteTrackerCall × Int)) :
    (∀ calls', calls' <+: calls → (Run.exec call vt log calls').1.Agrees) ↔
      Run.AllOk call CallExpiresUnvoted vt log calls :=
  Run.exec_invariant_iff (I := fun (vt : VoteTracker) _ => vt.Agrees)
    (fun _ log c h => h.call_iff log c) h calls

theorem countedVote_addVote {vote : Vote} {ph : PendingHeader}
    (hnone : ph.votes.get vote.validator = none) (vt : VoteTracker) (quorum : Nat)
    (order : IterOrder Vote) :
    (vt.addVote ph vote quorum order).2.countedVote vote.headerDigest vote.validator =
      some vote := by
  have hnew : ¬ ph.votes.has vote.validator = true := by simp [GoMap.has, hnone]
  unfold addVote countedVote
  rw [if_neg hnew]
  rw [GoMap.get_set_self, Option.bind_some, GoMap.get_set_self]

/-- Where the indexes agree, the first vote for a header that was not tracked counts. -/
theorem Agrees.counts_first (h : vt.Agrees) (hopen : vt.closed = false) {header : Header}
    (hnew : vt.hasHeader header.digest = false) {vote : Vote}
    (hvote : vote.headerDigest = header.digest) (quorum : Nat) (order : IterOrder Vote)
    (now now' : Int) :
    ((vt.trackHeader header now).recordVote vote quorum order now').2.countedVote header.digest
      vote.validator = some vote := by
  have hagrees := h.trackHeader header now
  have htracked : vt.trackHeader header now = { vt with
      pending := vt.pending.set header.digest { header, votes := ∅, createdAt := now } } := by
    have hnew : vt.pending.has header.digest = false := hnew
    simp [VoteTracker.trackHeader, hopen, hnew]
  generalize vt.trackHeader header now = tracked at hagrees htracked ⊢
  have hph : tracked.pending.get vote.headerDigest =
      some { header, votes := ∅, createdAt := now } := by
    rw [htracked, hvote]
    exact GoMap.get_set_self _ _ _
  have hremembered : tracked.rememberedVote vote.validator vote.headerDigest = none := by
    rw [hagrees, countedVote, hph]
    exact GoMap.get_empty vote.validator
  have hclosed : tracked.closed = false := by rw [htracked]; exact hopen
  rw [← hvote, VoteTracker.recordVote, hclosed, hph]
  simp only [Bool.false_eq_true, if_false]
  unfold rememberedVote at hremembered
  split
  · exact countedVote_addVote (GoMap.get_empty _) _ _ _
  · next votes hvotes =>
      rw [hvotes, Option.bind_some] at hremembered
      rw [hremembered]
      exact countedVote_addVote (GoMap.get_empty _) _ _ _

/-- Along any run of a tracker the two indexes agree exactly if no header with votes is
removed as timed out; then the next vote for a header that is tracked again counts. -/
theorem vote_indexes_agree_iff (timeout : Int) (calls : List (VoteTrackerCall × Int)) :
    ((∀ calls', calls' <+: calls → (Run.exec call (new timeout) [] calls').1.Agrees) ↔
      Run.AllOk call CallExpiresUnvoted (new timeout) [] calls) ∧
    (Run.AllOk call CallExpiresUnvoted (new timeout) [] calls →
      ∀ (header : Header) (vote : Vote) quorum order now now',
        let vt := (Run.exec call (new timeout) [] calls).1
        vt.hasHeader header.digest = false → vote.headerDigest = header.digest →
        ((vt.trackHeader header now).recordVote vote quorum order now').2.countedVote
          header.digest vote.validator = some vote) := by
  have hiff := (agrees_new timeout).exec_iff [] calls
  refine ⟨hiff, fun hok header vote quorum order now now' => ?_⟩
  intro vt hnew hvote
  have hopen : vt.closed = false := closed_exec (new timeout) [] calls
  exact (hiff.mpr hok calls (List.prefix_refl _)).counts_first hopen hnew hvote quorum order
    now now'

end VoteTracker

section

attribute [local instance] SliceSort.stable

/-- A header of validator `0` that is voted for, expires, and is tracked again. -/
def votedHeader : Header := idealHeader 0 1 [] [] 0

def trackVoteExpireTrack : List (VoteTrackerCall × Int) :=
  [(.trackHeader votedHeader, 0), (.recordVote (idealVote votedHeader.digest 1) 3 .listed, 1),
    (.removeTimedOut, 100), (.trackHeader votedHeader, 101),
    (.recordVote (idealVote votedHeader.digest 1) 3 .listed, 102)]

/-- After the time-out the vote is remembered for a header that is not tracked, and when the
header is tracked again it is not counted. -/
theorem retracked_vote_ignored :
    (let vt := (Run.exec VoteTracker.call (.new 10) [] (trackVoteExpireTrack.take 3)).1
     vt.hasHeader votedHeader.digest = false ∧
       vt.rememberedVote 1 votedHeader.digest = some (idealVote votedHeader.digest 1)) ∧
    (let vt := (Run.exec VoteTracker.call (.new 10) [] trackVoteExpireTrack).1
     vt.hasHeader votedHeader.digest = true ∧ vt.countedVote votedHeader.digest 1 = none) := by
  decide +kernel

/-- A header that expires before it is voted for. -/
def trackExpire : List (VoteTrackerCall × Int) :=
  [(.trackHeader votedHeader, 0), (.removeTimedOut, 100)]

theorem allOk_trackExpire :
    Run.AllOk VoteTracker.call VoteTracker.CallExpiresUnvoted (.new 10) [] trackExpire := by
  refine ⟨trivial, fun digest ph hph _ validator => ?_, trivial⟩
  rcases VoteTracker.get_trackHeader hph with hold | ⟨-, rfl⟩
  · exact absurd hold (by simp [VoteTracker.new])
  · exact GoMap.get_empty validator

theorem vote_indexes_agree_iff_unvoted :
    (∀ calls', calls' <+: trackExpire →
      (Run.exec VoteTracker.call (.new 10) [] calls').1.Agrees) ∧
    (((Run.exec VoteTracker.call (.new 10) [] trackExpire).1.trackHeader votedHeader
      101).recordVote (idealVote votedHeader.digest 1) 3 .listed 102).2.countedVote
        votedHeader.digest 1 = some (idealVote votedHeader.digest 1) := by
  obtain ⟨hiff, hcounts⟩ := VoteTracker.vote_indexes_agree_iff 10 trackExpire
  exact ⟨hiff.mpr allOk_trackExpire, hcounts allOk_trackExpire votedHeader
    (idealVote votedHeader.digest 1) 3 .listed 101 102 (by decide +kernel) rfl⟩

end

end DagMempool
