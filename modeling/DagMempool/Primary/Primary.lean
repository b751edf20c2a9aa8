import DagMempool.Primary.VoteTracker
import DagMempool.Store.Store

/-!
# The primary

Header creation, voting and certificate formation. The primary is wired to the
rest of the node by callbacks and by two interfaces it asks, and the model takes
each as an argument: `CertSink` is the certificate callback, which runs while the
primary's function does and writes the certificate store it shares with it;
`hasAckQuorum` is the ack-quorum checker; the batch-availability checker is the
function `handleHeader` is given, with the state it changes. Headers and votes
the primary sends are returned.

Every function reads the clock at most once here, so one `now` stands for the
readings the source takes one after the other.

`handleHeader` leaves no trace in the primary: what it voted for before plays no
part in what it votes for now.
-/

namespace DagMempool

/-- The part of `primary.Config` that is read. -/
structure PrimaryConfig where
  maxBatchesPerHeader : Nat
  voteTimeout : Int
  maxRoundGap : UInt64
  allowEmptyHeaders : Bool

structure PendingVoteEntry where
  votes : List Vote
  createdAt : Int

structure Primary [Crypto] where
  validatorID : UInt16
  signer : Signer
  cfg : PrimaryConfig
  currentRound : UInt64
  epoch : UInt64
  batchDigests : List BatchDigest
  voteTracker : VoteTracker
  pendingVotes : GoMap Hash PendingVoteEntry
  validatorSet : SimpleValidatorSet
  running : Bool

/-- What the certificate callback does to its own state and to the store. -/
abbrev CertSink (κ CS : Type) := κ → CS → Certificate → κ × CS

namespace Primary

/-- The walk over the queue: a digest is ready if it has its acks and there is
room, and otherwise it stays. -/
def splitReady (hasAckQuorum : Hash → Bool) (maxBatches : Nat) :
    List BatchDigest → List BatchDigest → List BatchDigest × List BatchDigest
  | ready, [] => (ready, [])
  | ready, d :: ds =>
    if ready.length < maxBatches && hasAckQuorum d.digest then
      splitReady hasAckQuorum maxBatches (ready ++ [d]) ds
    else
      let rest := splitReady hasAckQuorum maxBatches ready ds
      (rest.1, d :: rest.2)

variable [Crypto]

def new (validatorID : UInt16) (signer : Signer) (cfg : PrimaryConfig)
    (validatorSet : SimpleValidatorSet) : Primary :=
  { validatorID, signer, cfg, currentRound := 0, epoch := 0, batchDigests := []
    voteTracker := .new cfg.voteTimeout, pendingVotes := ∅, validatorSet, running := false }

def maxPendingAge (p : Primary) : Int := 2 * p.cfg.voteTimeout

def addBatchDigest (p : Primary) (digest : BatchDigest) : Primary :=
  { p with batchDigests := p.batchDigests ++ [digest] }

section

variable {CS : Type} [CertificateStore CS]

/-- The round check wraps around with `currentRound + MaxRoundGap`, as in the
source. The digest is not recomputed. -/
def validateHeader (p : Primary) (certStore : CS) (header : Header) : Except GoError Unit :=
  if header.round < p.currentRound then .error .roundMismatch
  else if p.currentRound + p.cfg.maxRoundGap < header.round then .error .roundMismatch
  else if header.epoch ≠ p.epoch then .error .epochMismatch
  else match p.validatorSet.getByIndex header.author with
    | none => .error .validatorNotFound
    | some author =>
      if !header.verify author.publicKey then .error .invalidSignature
      else if 0 < header.round && decide (header.parents.length < p.validatorSet.quorum) then
        .error .missingParents
      else if 0 < header.round && !header.parents.all fun parent =>
          CertificateStore.hasCertificate certStore parent.digest then
        .error .missingParents
      else .ok ()

/-- The vote to send and the validator to send it to, if any. The checker is asked
only about a header that is valid. -/
def handleHeader {φ : Type} (p : Primary) (certStore : CS)
    (requestBatchesForHeader : φ → Header → Bool × φ) (fetcher : φ) (header : Header) :
    Except GoError (Option (Vote × UInt16)) × φ :=
  if !p.running then (.error .notRunning, fetcher)
  else match p.validateHeader certStore header with
    | .error err => (.error err, fetcher)
    | .ok () =>
      let requested := requestBatchesForHeader fetcher header
      if !requested.1 then (.ok none, requested.2)
      else match (Vote.new header.digest p.validatorID).sign p.signer with
        | .error err => (.error err, requested.2)
        | .ok vote => (.ok (some (vote, header.author)), requested.2)

def tryAdvanceRound (p : Primary) (certStore : CS) : Primary :=
  match CertificateStore.getCertificatesByRound certStore p.currentRound with
  | .error _ => p
  | .ok certs =>
    if p.validatorSet.quorum ≤ certs.length then
      { p with currentRound := p.currentRound + 1 }
    else p

def handleCertificate (p : Primary) (certStore : CS) (cert : Certificate) :
    Except GoError Unit × Primary × CS :=
  if !p.running then (.error .notRunning, p, certStore)
  else match cert.verify p.validatorSet with
    | .error err => (.error err, p, certStore)
    | .ok () =>
      let saved := CertificateStore.saveCertificate certStore cert
      match saved.1 with
      | .error err => (.error err, p, saved.2)
      | .ok () => (.ok (), p.tryAdvanceRound saved.2, saved.2)

/-- What follows a certificate: it is saved, its header is no longer tracked, and
the callback runs. -/
def certificateFormed {κ : Type} (p : Primary) (certStore : CS) (sink : CertSink κ CS)
    (k : κ) (cert : Certificate) (headerDigest : Hash) : Primary × CS × κ :=
  let saved := (CertificateStore.saveCertificate certStore cert).2
  let sunk := sink k saved cert
  ({ p with voteTracker := p.voteTracker.removeHeader headerDigest }, sunk.2, sunk.1)

def bufferVote (p : Primary) (vote : Vote) (now : Int) : Primary :=
  let entry := (p.pendingVotes.get vote.headerDigest).getD { votes := [], createdAt := now }
  let entry := { entry with votes := entry.votes ++ [vote] }
  { p with pendingVotes := p.pendingVotes.set vote.headerDigest entry }

variable [SliceSort]

/-- `RecordVote`, and what follows if the vote completes a quorum. -/
def recordVote {κ : Type} (p : Primary) (certStore : CS) (sink : CertSink κ CS) (k : κ)
    (vote : Vote) (order : IterOrder Vote) (now : Int) :
    Option Certificate × Primary × CS × κ :=
  let recorded := p.voteTracker.recordVote vote p.validatorSet.quorum order now
  let p := { p with voteTracker := recorded.2 }
  match recorded.1 with
  | none => (none, p, certStore, k)
  | some cert => (some cert, p.certificateFormed certStore sink k cert vote.headerDigest)

def handleVote {κ : Type} (p : Primary) (certStore : CS) (sink : CertSink κ CS) (k : κ)
    (vote : Vote) (order : IterOrder Vote) (now : Int) :
    Option Certificate × Primary × CS × κ :=
  if !p.running then (none, p, certStore, k)
  else if !p.validatorSet.verifySignature vote.validator vote.headerDigest vote.signature then
    (none, p, certStore, k)
  else if !p.voteTracker.hasHeader vote.headerDigest then
    (none, p.bufferVote vote now, certStore, k)
  else p.recordVote certStore sink k vote order now

def selectParents (p : Primary) (certStore : CS) (round : UInt64) : List CertificateRef :=
  if round = 0 then []
  else match CertificateStore.getCertificatesByRound certStore (round - 1) with
    | .error _ => []
    | .ok certs =>
      let sorted := SliceSort.sortSlice
        (fun a b => decide (a.author.toNat < b.author.toNat)) certs
      (sorted.take p.validatorSet.quorum).map (·.getRef)

/-- The votes buffered for a header are recorded until one completes a quorum. -/
def recordVotes {κ : Type} (p : Primary) (certStore : CS) (sink : CertSink κ CS) (k : κ)
    (order : IterOrder Vote) (now : Int) : List Vote → Primary × CS × κ
  | [] => (p, certStore, k)
  | vote :: votes =>
    let recorded := p.recordVote certStore sink k vote order now
    match recorded.1 with
    | some _ => recorded.2
    | none =>
      recordVotes recorded.2.1 recorded.2.2.1 sink recorded.2.2.2 order now votes

def processPendingVotes {κ : Type} (p : Primary) (certStore : CS) (sink : CertSink κ CS)
    (k : κ) (headerDigest : Hash) (order : IterOrder Vote) (now : Int) : Primary × CS × κ :=
  match p.pendingVotes.get headerDigest with
  | none => (p, certStore, k)
  | some entry =>
    { p with pendingVotes := p.pendingVotes.del headerDigest }.recordVotes
      certStore sink k order now entry.votes

/-- The self-vote for a header just tracked, and the advance that follows if it
completes a quorum by itself. -/
def selfVote {κ : Type} (p : Primary) (certStore : CS) (sink : CertSink κ CS) (k : κ)
    (header : Header) (order : IterOrder Vote) (now : Int) : Primary × CS × κ :=
  match (Vote.new header.digest p.validatorID).sign p.signer with
  | .error _ => (p, certStore, k)
  | .ok vote =>
    let recorded := p.recordVote certStore sink k vote order now
    match recorded.1 with
    | none => recorded.2
    | some _ => (recorded.2.1.tryAdvanceRound recorded.2.2.1, recorded.2.2)

/-- The header that would be built from the digests that are ready, signed. -/
def buildHeader (p : Primary) (certStore : CS) (digests : List BatchDigest) (now : Int) :
    Option Header :=
  let parents := p.selectParents certStore p.currentRound
  if 0 < p.currentRound && parents.isEmpty && digests.isEmpty then none
  else
    match (Header.new p.validatorID p.currentRound p.epoch digests parents
        (Int64.ofInt now)).sign p.signer with
    | .error _ => none
    | .ok header => some header

/-- The header to broadcast, if one was created. -/
def tryCreateHeader {κ : Type} (p : Primary) (certStore : CS) (sink : CertSink κ CS) (k : κ)
    (hasAckQuorum : Hash → Bool) (order : IterOrder Vote) (now : Int) :
    Option Header × Primary × CS × κ :=
  if !p.running then (none, p, certStore, k)
  else if p.batchDigests.isEmpty && !p.cfg.allowEmptyHeaders then (none, p, certStore, k)
  else
    let split := splitReady hasAckQuorum p.cfg.maxBatchesPerHeader [] p.batchDigests
    -- What is not ready is put back before the header is built; what is ready is
    -- gone from the queue even if signing fails.
    let p := { p with batchDigests := split.2 }
    match p.buildHeader certStore split.1 now with
    | none => (none, p, certStore, k)
    | some header =>
      let p := { p with voteTracker := p.voteTracker.trackHeader header now }
      let voted := p.selfVote certStore sink k header order now
      (some header, voted.1.processPendingVotes voted.2.1 sink voted.2.2 header.digest
        order now)

end

def cleanupPendingVotes (p : Primary) (now : Int) : Primary :=
  { p with
    pendingVotes := p.pendingVotes.filter fun _ entry =>
      !decide (entry.createdAt < now - p.maxPendingAge)
    voteTracker := (p.voteTracker.removeTimedOut now).2 }

/-! ## What the handlers can do -/

theorem mem_bufferVote {p : Primary} {vote v : Vote} {now : Int} {d : Hash}
    {entry : PendingVoteEntry} (h : (p.bufferVote vote now).pendingVotes.get d = some entry)
    (hv : v ∈ entry.votes) :
    (∃ entry', p.pendingVotes.get d = some entry' ∧ v ∈ entry'.votes) ∨
      d = vote.headerDigest ∧ v = vote := by
  rcases GoMap.get_set_eq_some h with ⟨rfl, rfl⟩ | ⟨-, hold⟩
  · rcases List.mem_append.mp hv with hv | hv
    · cases hget : p.pendingVotes.get vote.headerDigest with
      | none =>
        rw [hget] at hv
        cases hv
      | some entry' =>
        rw [hget] at hv
        exact .inl ⟨entry', rfl, hv⟩
    · exact .inr ⟨rfl, List.mem_singleton.mp hv⟩
  · exact .inl ⟨entry, hold, hv⟩

section

variable {CS : Type} [CertificateStore CS]

theorem tryAdvanceRound_eq (p : Primary) (certStore : CS) :
    ∃ currentRound, p.tryAdvanceRound certStore = { p with currentRound } := by
  unfold tryAdvanceRound
  split
  · exact ⟨p.currentRound, rfl⟩
  · split
    · exact ⟨_, rfl⟩
    · exact ⟨p.currentRound, rfl⟩

/-- A certificate at most moves the round and is at most saved. -/
theorem handleCertificate_eq (p : Primary) (certStore : CS) (cert : Certificate) :
    (∃ currentRound, (p.handleCertificate certStore cert).2.1 = { p with currentRound }) ∧
      ((p.handleCertificate certStore cert).2.2 = certStore ∨
        (p.handleCertificate certStore cert).2.2 =
          (CertificateStore.saveCertificate certStore cert).2) := by
  have hself : ∃ currentRound, p = { p with currentRound } := ⟨p.currentRound, rfl⟩
  unfold handleCertificate
  split
  · exact ⟨hself, .inl rfl⟩
  · split
    · exact ⟨hself, .inl rfl⟩
    · dsimp only
      split
      · exact ⟨hself, .inr rfl⟩
      · exact ⟨p.tryAdvanceRound_eq _, .inr rfl⟩

theorem handleCertificate_of_invalid (p : Primary) (certStore : CS) {cert : Certificate}
    (h : cert.verify p.validatorSet ≠ .ok ()) :
    (p.handleCertificate certStore cert).2 = (p, certStore) := by
  unfold handleCertificate
  split
  · rfl
  · split
    · rfl
    · next hvalid => exact absurd hvalid h

/-- The certificates of the round before in the store, where parents are selected. -/
def candidates (p : Primary) (certStore : CS) : List Certificate :=
  match CertificateStore.getCertificatesByRound certStore (p.currentRound - 1) with
  | .error _ => []
  | .ok certs => certs

variable [SliceSort] {p : Primary} {certStore : CS} {header : Header}

theorem mem_selectParents {ref : CertificateRef}
    (h : ref ∈ p.selectParents certStore p.currentRound) :
    ∃ c ∈ p.candidates certStore, ref.digest = c.digest := by
  unfold selectParents at h
  unfold candidates
  split at h
  · cases h
  · split at h
    · cases h
    · next certs _ =>
        obtain ⟨c, hc, rfl⟩ := List.mem_map.mp h
        exact ⟨c, SliceSort.mem_sortSlice.mp (List.mem_of_mem_take hc), rfl⟩

/-- The header a tick makes of some digests, before it is signed. -/
def unsigned (p : Primary) (certStore : CS) (digests : List BatchDigest) (now : Int) : Header :=
  Header.new p.validatorID p.currentRound p.epoch digests
    (p.selectParents certStore p.currentRound) (Int64.ofInt now)

theorem buildHeader_eq_some {digests : List BatchDigest} {now : Int}
    (h : p.buildHeader certStore digests now = some header) :
    ∃ sig, p.signer.sign (p.unsigned certStore digests now).digest = .ok sig ∧
      header = { p.unsigned certStore digests now with signature := sig } := by
  unfold buildHeader at h
  dsimp only at h
  split at h
  · cases h
  · split at h
    · cases h
    · next header' hsign =>
        cases h
        exact Header.sign_eq_ok hsign

/-- A header with batches is built unless it cannot be signed. -/
theorem buildHeader_eq_none {digests : List BatchDigest} {now : Int}
    (h : p.buildHeader certStore digests now = none) :
    digests = [] ∨ ∃ err, p.signer.sign (p.unsigned certStore digests now).digest = .error err := by
  unfold buildHeader at h
  dsimp only at h
  split at h
  · next hskip =>
      rw [Bool.and_eq_true_iff] at hskip
      exact .inl (List.isEmpty_iff.mp hskip.2)
  · split at h
    · next err hsign => exact .inr ⟨err, Header.sign_eq_error hsign⟩
    · cases h

omit [SliceSort] in
theorem validateHeader_eq_ok :
    p.validateHeader certStore header = .ok () ↔
      p.currentRound ≤ header.round ∧ header.round ≤ p.currentRound + p.cfg.maxRoundGap ∧
      header.epoch = p.epoch ∧
      (∃ author, p.validatorSet.getByIndex header.author = some author ∧
        header.verify author.publicKey = true) ∧
      (0 < header.round → p.validatorSet.quorum ≤ header.parents.length ∧
        ∀ parent ∈ header.parents,
          CertificateStore.hasCertificate certStore parent.digest = true) := by
  rw [← UInt64.not_lt, ← UInt64.not_lt]
  unfold validateHeader
  split
  · next hlow => simp [hlow]
  · next hlow =>
      split
      · next hhigh => simp [hhigh]
      · next hhigh =>
          split
          · next hepoch => simp [hepoch]
          · next hepoch =>
              have hepoch : header.epoch = p.epoch := Classical.not_not.mp hepoch
              cases hauthor : p.validatorSet.getByIndex header.author with
              | none => simp
              | some author =>
                cases hsig : header.verify author.publicKey with
                | false => simp [hsig]
                | true =>
                  by_cases hround : 0 < header.round
                  · by_cases hlen : header.parents.length < p.validatorSet.quorum
                    · simp [hsig, hround, hlen, Nat.not_le.mpr hlen]
                    · simp [hlow, hhigh, hepoch, hsig, hround, hlen, Nat.not_lt.mp hlen]
                  · simp [hlow, hhigh, hepoch, hsig, hround]

omit [SliceSort] in
theorem validateHeader_signed (h : p.validateHeader certStore header = .ok ()) :
    p.validatorSet.verifySignature header.author header.digest header.signature = true := by
  rw [SimpleValidatorSet.verifySignature_eq_true]
  exact (validateHeader_eq_ok.mp h).2.2.2.1

omit [SliceSort] in
theorem handleHeader_eq_vote {φ : Type} {request : φ → Header → Bool × φ} {fetcher : φ}
    {vote : Vote × UInt16}
    (h : (p.handleHeader certStore request fetcher header).1 = .ok (some vote)) :
    p.validateHeader certStore header = .ok () := by
  unfold handleHeader at h
  split at h
  · cases h
  · split at h
    · cases h
    · next hvalid => exact hvalid

end

end Primary

end DagMempool
