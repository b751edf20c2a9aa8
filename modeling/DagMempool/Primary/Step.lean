import DagMempool.Lib.Run
import DagMempool.Primary.Primary

/-!
# Runs of one primary

A primary with the certificate store it shares and the state of its certificate
callback, whatever that callback does. An event is one call, by its owner or by its
own loop, and a restart is a new primary over the same store. Each step leaves marks
behind: what was asked of the primary, what it gave to its callbacks, and what its
clean-up threw away.
-/

namespace DagMempool

inductive PrimaryEvent where
  | addBatchDigest (digest : BatchDigest)
  | headerTick (hasAckQuorum : Hash → Bool)
  | vote (vote : Vote)
  | header (header : Header) (available : Bool)
  | certificate (cert : Certificate)
  | advanceRound
  | cleanup
  | restart

/-- The clock, and the order of a walk over votes. -/
structure PrimaryEnv where
  now : Int
  votes : IterOrder Vote

inductive PrimaryMark where
  | queued (digest : BatchDigest)
  | delivered (vote : Vote)
  | created (header : Header)
  | certified (cert : Certificate)
  | voted (vote : Vote) (target : UInt16)
  | expired (digest : Hash)
  deriving DecidableEq

structure PrimarySystem (κ CS : Type) [Crypto] where
  primary : Primary
  certStore : CS
  sink : κ

/-- A callback that also keeps a list of the certificates it is given. -/
def CertSink.logged {κ CS : Type} (callback : CertSink κ CS) :
    CertSink (κ × List Certificate) CS :=
  fun k certStore cert =>
    let sunk := callback k.1 certStore cert
    ((sunk.1, k.2 ++ [cert]), sunk.2)

namespace PrimarySystem

variable [Crypto] {κ CS : Type}

/-- `Start` after `New`. -/
def startPrimary (validatorID : UInt16) (signer : Signer) (cfg : PrimaryConfig)
    (validatorSet : SimpleValidatorSet) : Primary :=
  { Primary.new validatorID signer cfg validatorSet with running := true }

/-- The system after a call that may form certificates, and the certificates formed. -/
def withFormed (formed : Primary × CS × κ × List Certificate) :
    PrimarySystem κ CS × List PrimaryMark :=
  ({ primary := formed.1, certStore := formed.2.1, sink := formed.2.2.1 },
    formed.2.2.2.map .certified)

variable [CertificateStore CS] [SliceSort]

def step (callback : CertSink κ CS) (s : PrimarySystem κ CS) :
    PrimaryEvent × PrimaryEnv → PrimarySystem κ CS × List PrimaryMark
  | (.addBatchDigest digest, _) =>
    ({ s with primary := s.primary.addBatchDigest digest }, [.queued digest])
  | (.headerTick hasAckQuorum, env) =>
    let created := s.primary.tryCreateHeader s.certStore callback.logged (s.sink, [])
      hasAckQuorum env.votes env.now
    let formed := withFormed created.2
    (formed.1, formed.2 ++ created.1.toList.map .created)
  | (.vote vote, env) =>
    let handled := s.primary.handleVote s.certStore callback.logged (s.sink, []) vote
      env.votes env.now
    let formed := withFormed handled.2
    (formed.1, .delivered vote :: formed.2)
  | (.header header available, _) =>
    match (s.primary.handleHeader s.certStore (fun _ _ => (available, ())) () header).1 with
    | .ok (some (vote, target)) => (s, [.voted vote target])
    | _ => (s, [])
  | (.certificate cert, _) =>
    let handled := s.primary.handleCertificate s.certStore cert
    ({ s with primary := handled.2.1, certStore := handled.2.2 }, [])
  | (.advanceRound, _) =>
    ({ s with primary := s.primary.tryAdvanceRound s.certStore }, [])
  | (.cleanup, env) =>
    let cleaned := s.primary.cleanupPendingVotes env.now
    ({ s with primary := cleaned },
      ((s.primary.voteTracker.pending.keys.filter fun d =>
          !cleaned.voteTracker.pending.has d) ++
        s.primary.pendingVotes.keys.filter fun d =>
          !cleaned.pendingVotes.has d).map .expired)
  | (.restart, _) =>
    ({ s with
        primary := startPrimary s.primary.validatorID s.primary.signer s.primary.cfg
          s.primary.validatorSet }, [])

/-- A primary just started, whatever its store and its callback start with. -/
def Started (validatorID : UInt16) (signer : Signer) (cfg : PrimaryConfig)
    (validatorSet : SimpleValidatorSet) (s : PrimarySystem κ CS) : Prop :=
  s.primary = startPrimary validatorID signer cfg validatorSet

end PrimarySystem

/-! ## Reading the marks -/

namespace PrimaryMark

def createdHeaders (log : List PrimaryMark) : List Header :=
  log.filterMap fun
    | .created header => some header
    | _ => none

def certifiedCertificates (log : List PrimaryMark) : List Certificate :=
  log.filterMap fun
    | .certified cert => some cert
    | _ => none

def deliveredVotes (log : List PrimaryMark) : List Vote :=
  log.filterMap fun
    | .delivered vote => some vote
    | _ => none

def queuedDigests (log : List PrimaryMark) : List BatchDigest :=
  log.filterMap fun
    | .queued digest => some digest
    | _ => none

variable (log log' : List PrimaryMark) (certs : List Certificate)

@[simp] theorem createdHeaders_append :
    createdHeaders (log ++ log') = createdHeaders log ++ createdHeaders log' :=
  List.filterMap_append

@[simp] theorem certifiedCertificates_append :
    certifiedCertificates (log ++ log') =
      certifiedCertificates log ++ certifiedCertificates log' :=
  List.filterMap_append

@[simp] theorem deliveredVotes_append :
    deliveredVotes (log ++ log') = deliveredVotes log ++ deliveredVotes log' :=
  List.filterMap_append

@[simp] theorem queuedDigests_append :
    queuedDigests (log ++ log') = queuedDigests log ++ queuedDigests log' :=
  List.filterMap_append

@[simp] theorem queuedDigests_certified : queuedDigests (certs.map .certified) = [] := by
  simp [queuedDigests, List.filterMap_map]

@[simp] theorem createdHeaders_certified : createdHeaders (certs.map .certified) = [] := by
  simp [createdHeaders, List.filterMap_map]

@[simp] theorem deliveredVotes_certified : deliveredVotes (certs.map .certified) = [] := by
  simp [deliveredVotes, List.filterMap_map]

@[simp] theorem certifiedCertificates_certified :
    certifiedCertificates (certs.map .certified) = certs := by
  simp [certifiedCertificates, List.filterMap_map]

end PrimaryMark

end DagMempool
