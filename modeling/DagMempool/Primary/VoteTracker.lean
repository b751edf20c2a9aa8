import DagMempool.Types.Certificate

/-!
# The vote tracker

The headers this node authored and still wants votes for, each with the votes so
far by validator, and a second index of votes by validator and header from which
repeated votes with another signature are told. A vote counts once a validator;
when a header has a quorum of them, a certificate is formed from the first quorum
of votes the iteration over the map happens to visit.
-/

namespace DagMempool

structure DoubleVoteEvidence where
  validatorID : UInt16
  headerID : Hash
  vote1 : Vote
  vote2 : Vote
  timestamp : Int

structure PendingHeader where
  header : Header
  votes : GoMap UInt16 Vote
  createdAt : Int

structure VoteTracker where
  pending : GoMap Hash PendingHeader
  timeout : Int
  closed : Bool
  validatorVotes : GoMap UInt16 (GoMap Hash Vote)
  doubleVotes : List DoubleVoteEvidence

namespace VoteTracker

def new (timeout : Int) : VoteTracker :=
  { pending := ∅, timeout, closed := false, validatorVotes := ∅, doubleVotes := [] }

def trackHeader (vt : VoteTracker) (header : Header) (now : Int) : VoteTracker :=
  if vt.closed then vt
  else if vt.pending.has header.digest then vt
  else { vt with
    pending := vt.pending.set header.digest { header, votes := ∅, createdAt := now } }

def hasHeader (vt : VoteTracker) (digest : Hash) : Bool := vt.pending.has digest

def getDoubleVoteEvidence (vt : VoteTracker) : List DoubleVoteEvidence := vt.doubleVotes

def pendingHeadersOlderThan (vt : VoteTracker) (minAge now : Int) : List Header :=
  if vt.closed then []
  else (vt.pending.values.filter fun p => decide (p.createdAt < now - minAge)).map (·.header)

def removeHeader (vt : VoteTracker) (digest : Hash) : VoteTracker :=
  { vt with
    validatorVotes := (vt.validatorVotes.map fun _ votes => votes.del digest).filter
      fun _ votes => votes.len != 0
    pending := vt.pending.del digest }

def removeTimedOut (vt : VoteTracker) (now : Int) : List Header × VoteTracker :=
  let timedOut (p : PendingHeader) := decide (p.createdAt < now - vt.timeout)
  ((vt.pending.values.filter timedOut).map (·.header),
    { vt with pending := vt.pending.filter fun _ p => !timedOut p })

section

variable [SliceSort]

/-- The loop stops once it has `quorum` votes, and not before the first. -/
def formCertificate (pending : PendingHeader) (quorum : Nat) (order : IterOrder Vote) :
    Certificate :=
  .new pending.header ((order.arrange pending.votes.values).take (max quorum 1))

def formIfQuorum (pending : PendingHeader) (quorum : Nat) (order : IterOrder Vote) :
    Option Certificate :=
  if quorum ≤ pending.votes.len then some (formCertificate pending quorum order) else none

/-- The end of `RecordVote`, for a vote the validator index does not have. -/
def addVote (vt : VoteTracker) (pending : PendingHeader) (vote : Vote) (quorum : Nat)
    (order : IterOrder Vote) : Option Certificate × VoteTracker :=
  if pending.votes.has vote.validator then (formIfQuorum pending quorum order, vt)
  else
    let pending := { pending with votes := pending.votes.set vote.validator vote }
    let votes := (vt.validatorVotes.get vote.validator).getD ∅
    (formIfQuorum pending quorum order,
      { vt with
        pending := vt.pending.set vote.headerDigest pending
        validatorVotes :=
          vt.validatorVotes.set vote.validator (votes.set vote.headerDigest vote) })

def recordVote (vt : VoteTracker) (vote : Vote) (quorum : Nat) (order : IterOrder Vote)
    (now : Int) : Option Certificate × VoteTracker :=
  if vt.closed then (none, vt)
  else match vt.pending.get vote.headerDigest with
    | none => (none, vt)
    | some pending =>
      match vt.validatorVotes.get vote.validator with
      | none =>
        { vt with validatorVotes := vt.validatorVotes.set vote.validator ∅ }.addVote
          pending vote quorum order
      | some existingVotes =>
        match existingVotes.get vote.headerDigest with
        | none => vt.addVote pending vote quorum order
        | some existingVote =>
          let evidence : DoubleVoteEvidence :=
            { validatorID := vote.validator, headerID := vote.headerDigest,
              vote1 := existingVote, vote2 := vote, timestamp := now }
          (formIfQuorum pending quorum order,
            if existingVote.signature = vote.signature then vt
            else { vt with doubleVotes := vt.doubleVotes ++ [evidence] })

end

/-! ## Recording a vote

Everything later needs to know about `recordVote` is which headers stay pending
with which votes, and what a certificate is formed from. -/

variable [SliceSort]

/-- What can become of the pending headers, and of the certificate, when a vote is
recorded: nothing, or one header, with at most this vote more. -/
theorem recordVote_cases (vt : VoteTracker) (vote : Vote) (quorum : Nat)
    (order : IterOrder Vote) (now : Int) :
    ((vt.recordVote vote quorum order now).1 = none ∧
      (vt.recordVote vote quorum order now).2.pending = vt.pending) ∨
    ∃ ph, vt.pending.get vote.headerDigest = some ph ∧
      (((vt.recordVote vote quorum order now).1 = formIfQuorum ph quorum order ∧
        (vt.recordVote vote quorum order now).2.pending = vt.pending) ∨
       ((vt.recordVote vote quorum order now).1 =
          formIfQuorum { ph with votes := ph.votes.set vote.validator vote } quorum order ∧
        (vt.recordVote vote quorum order now).2.pending =
          vt.pending.set vote.headerDigest
            { ph with votes := ph.votes.set vote.validator vote })) := by
  have hadd : ∀ (vt' : VoteTracker) (ph : PendingHeader), vt'.pending = vt.pending →
      ((vt'.addVote ph vote quorum order).1 = formIfQuorum ph quorum order ∧
        (vt'.addVote ph vote quorum order).2.pending = vt.pending) ∨
      ((vt'.addVote ph vote quorum order).1 =
          formIfQuorum { ph with votes := ph.votes.set vote.validator vote } quorum order ∧
        (vt'.addVote ph vote quorum order).2.pending =
          vt.pending.set vote.headerDigest
            { ph with votes := ph.votes.set vote.validator vote }) := by
    intro vt' ph hp
    unfold addVote
    split
    · exact .inl ⟨rfl, hp⟩
    · exact .inr ⟨rfl, by rw [← hp]⟩
  unfold recordVote
  split
  · exact .inl ⟨rfl, rfl⟩
  · cases hp : vt.pending.get vote.headerDigest with
    | none => exact .inl ⟨rfl, rfl⟩
    | some ph =>
      refine .inr ⟨ph, rfl, ?_⟩
      cases vt.validatorVotes.get vote.validator with
      | none => exact hadd _ ph rfl
      | some existing =>
        dsimp only
        cases existing.get vote.headerDigest with
        | none => exact hadd vt ph rfl
        | some old =>
          refine .inl ⟨rfl, ?_⟩
          show (if old.signature = vote.signature then vt else _).pending = vt.pending
          split <;> rfl

variable {ph : PendingHeader} {quorum : Nat} {order : IterOrder Vote} {vt : VoteTracker}

theorem formIfQuorum_eq_some {c : Certificate} (h : formIfQuorum ph quorum order = some c) :
    quorum ≤ ph.votes.len ∧ c = formCertificate ph quorum order := by
  unfold formIfQuorum at h
  split at h
  · next hq => exact ⟨hq, (Option.some.inj h).symm⟩
  · cases h

/-- One tracker is another with at most this vote more. -/
def Recorded (vt : VoteTracker) (vote : Vote) (vt' : VoteTracker) : Prop :=
  vt'.pending = vt.pending ∨
    ∃ ph, vt.pending.get vote.headerDigest = some ph ∧
      vt'.pending = vt.pending.set vote.headerDigest
        { ph with votes := ph.votes.set vote.validator vote }

theorem recordVote_recorded (vt : VoteTracker) (vote : Vote) (quorum : Nat)
    (order : IterOrder Vote) (now : Int) :
    vt.Recorded vote (vt.recordVote vote quorum order now).2 := by
  rcases vt.recordVote_cases vote quorum order now with
    ⟨-, h⟩ | ⟨ph, hph, ⟨-, h⟩ | ⟨-, h⟩⟩
  · exact .inl h
  · exact .inl h
  · exact .inr ⟨ph, hph, h⟩

theorem recordVote_eq_some {vote : Vote} {now : Int} {c : Certificate}
    (h : (vt.recordVote vote quorum order now).1 = some c) :
    ∃ ph, (vt.recordVote vote quorum order now).2.pending.get vote.headerDigest = some ph ∧
      quorum ≤ ph.votes.len ∧ c = formCertificate ph quorum order := by
  rcases vt.recordVote_cases vote quorum order now with
    ⟨hnone, -⟩ | ⟨ph, hph, ⟨hform, hpend⟩ | ⟨hform, hpend⟩⟩
  · exact absurd (h.symm.trans hnone) (by simp)
  · exact ⟨ph, by rw [hpend, hph], formIfQuorum_eq_some (hform.symm.trans h)⟩
  · exact ⟨_, by rw [hpend, GoMap.get_set_self], formIfQuorum_eq_some (hform.symm.trans h)⟩

theorem recordVote_closed (vt : VoteTracker) (vote : Vote)
    (quorum : Nat) (order : IterOrder Vote) (now : Int) :
    (vt.recordVote vote quorum order now).2.closed = vt.closed := by
  have hadd : ∀ (vt' : VoteTracker) (ph : PendingHeader), vt'.closed = vt.closed →
      (vt'.addVote ph vote quorum order).2.closed = vt.closed := by
    intro vt' ph hclosed
    unfold addVote
    split <;> exact hclosed
  unfold recordVote
  split
  · rfl
  · split
    · rfl
    · split
      · exact hadd _ _ rfl
      · split
        · exact hadd _ _ rfl
        · split <;> rfl

omit [SliceSort] in
/-- What holds of every pending header still does, if the vote does not spoil it. -/
theorem Recorded.forall_pending {vt vt' : VoteTracker} {vote : Vote}
    {T : Hash → PendingHeader → Prop} (h : vt.Recorded vote vt')
    (hadd : ∀ ph, T vote.headerDigest ph →
      T vote.headerDigest { ph with votes := ph.votes.set vote.validator vote })
    (hT : ∀ d ph, vt.pending.get d = some ph → T d ph) :
    ∀ d ph, vt'.pending.get d = some ph → T d ph := by
  intro d ph hph
  rcases h with h | ⟨ph', hph', h⟩
  · exact hT d ph (by rw [← h]; exact hph)
  · rw [h] at hph
    rcases GoMap.get_set_eq_some hph with ⟨rfl, rfl⟩ | ⟨-, hold⟩
    · exact hadd ph' (hT _ ph' hph')
    · exact hT d ph hold

theorem mem_votes_formCertificate {v : Vote} (h : v ∈ (formCertificate ph quorum order).votes) :
    ∃ i, ph.votes.get i = some v := by
  have h : v ∈ (order.arrange ph.votes.values).take (max quorum 1) :=
    SliceSort.mem_sortSlice.mp h
  exact GoMap.mem_values.mp (order.mem_arrange.mp (List.mem_of_mem_take h))

theorem length_votes_formCertificate (order : IterOrder Vote) (h : quorum ≤ ph.votes.len) :
    quorum ≤ (formCertificate ph quorum order).votes.length := by
  have hlen : (formCertificate ph quorum order).votes.length =
      ((order.arrange ph.votes.values).take (max quorum 1)).length :=
    SliceSort.length_sortSlice _ _
  have hvalues : ph.votes.values.length = ph.votes.len := List.length_map _
  rw [hlen, List.length_take, order.length_arrange, hvalues]
  omega

/-! ## Headers that stay pending -/

omit [SliceSort] in
theorem get_trackHeader {header : Header} {now : Int} {d : Hash}
    (h : (vt.trackHeader header now).pending.get d = some ph) :
    vt.pending.get d = some ph ∨
      (d = header.digest ∧ ph = { header, votes := ∅, createdAt := now }) := by
  unfold trackHeader at h
  split at h
  · exact .inl h
  · split at h
    · exact .inl h
    · rcases GoMap.get_set_eq_some h with ⟨hd, hph⟩ | ⟨-, hold⟩
      · exact .inr ⟨hd, hph⟩
      · exact .inl hold

omit [SliceSort] in
theorem get_removeHeader {digest d : Hash} (h : (vt.removeHeader digest).pending.get d = some ph) :
    vt.pending.get d = some ph :=
  (GoMap.get_del_eq_some.mp h).2

omit [SliceSort] in
theorem get_removeTimedOut {now : Int} {d : Hash}
    (h : (vt.removeTimedOut now).2.pending.get d = some ph) : vt.pending.get d = some ph :=
  (GoMap.get_filter_eq_some.mp h).1

end VoteTracker

end DagMempool
