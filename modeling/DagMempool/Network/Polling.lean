import DagMempool.Network.Sync

/-!
# Polling peers, catching up and retrying

What the loop of the sync manager sends. A poll looks at the heights recorded for the
peers, asks for what is missing up to the greatest of them if that is far enough ahead,
and probes every peer with no request pending. A request that is not answered in time is
sent again, to another peer if there is one.

A retry moves its request in the map of pending ones only if the entry it came from is
still that very request. The entries are pointers in the source, and within one pass an
entry is another one exactly if an earlier retry of the pass was moved onto it, so that is
what is kept track of.

At the end is the way certificates are taken without the callback: straight into the DAG.
-/

namespace DagMempool

/-- The fields of `SyncConfig` that only polling and retrying read. -/
structure SyncPolicy where
  syncThreshold : UInt64
  maxRetries : Nat
  maxBackoff : Int

/-- No threshold is a threshold of one round. -/
def SyncPolicy.threshold (policy : SyncPolicy) : UInt64 :=
  if policy.syncThreshold = 0 then 1 else policy.syncThreshold

/-- What a call finds: who we are, the clock, our highest round, and the peers that a
request can be sent to without an error. -/
structure SyncEnv where
  me : UInt16
  now : Int
  localRound : UInt64
  reachable : UInt16 → Bool

abbrev SentRequests := List (UInt16 × SyncRequest)

namespace SyncManager

/-- With a highest round of `0` nothing tells whether round `0` is there. -/
def firstMissing (localRound : UInt64) : UInt64 :=
  if localRound = 0 then 0 else localRound + 1

/-- The loop of `CatchUp`: the first peer that the request can be sent to. -/
def requestFirst (env : SyncEnv) (fromRound toRound : UInt64) :
    List Validator → SyncManager → Except GoError Unit × SyncManager × SentRequests
  | [], s => (.error .validatorNotFound, s, [])
  | v :: vs, s =>
    if v.index = env.me then requestFirst env fromRound toRound vs s
    else
      let requested := s.requestSync v.index fromRound toRound env.me env.now
      if env.reachable v.index then (.ok (), requested.2, [(v.index, requested.1)])
      else requestFirst env fromRound toRound vs requested.2

def catchUp (s : SyncManager) (env : SyncEnv) (targetRound : UInt64) :
    Except GoError Unit × SyncManager × SentRequests :=
  if targetRound ≤ env.localRound then (.ok (), s, [])
  else
    requestFirst env (firstMissing env.localRound) targetRound s.validatorSet.validators s

/-- The second half of a poll. -/
def probePeers (env : SyncEnv) : List Validator → SyncManager → SyncManager × SentRequests
  | [], s => (s, [])
  | v :: vs, s =>
    if v.index = env.me || s.pendingReqs.has v.index then probePeers env vs s
    else
      let requested :=
        s.requestSync v.index (firstMissing env.localRound) 0 env.me env.now
      let rest := probePeers env vs requested.2
      (rest.1, if env.reachable v.index then (v.index, requested.1) :: rest.2 else rest.2)

/-- The greatest height recorded. -/
def highestPeer (s : SyncManager) : UInt64 :=
  s.peerHighest.values.foldl (fun target r => if target < r then r else target) 0

def checkAndSync (s : SyncManager) (policy : SyncPolicy) (env : SyncEnv) :
    SyncManager × SentRequests :=
  let target := s.highestPeer
  let caught :=
    if env.localRound < target ∧ policy.threshold ≤ target - env.localRound then
      (s.catchUp env target).2
    else (s, [])
  let probed := probePeers env s.validatorSet.validators caught.1
  (probed.1, caught.2 ++ probed.2)

/-! ## Retries -/

/-- The back-off after some retries: doubled for each, up to the maximum. -/
def backoffAfter (maxBackoff : Int) : Nat → Int → Int
  | 0, backoff => backoff
  | n + 1, backoff =>
    if backoff < maxBackoff then
      backoffAfter maxBackoff n (if maxBackoff < backoff * 2 then maxBackoff else backoff * 2)
    else backoff

/-- A request that is about to be sent once more. -/
def retried (cfg : SyncConfig) (policy : SyncPolicy) (now : Int) (req : PendingSyncRequest) :
    PendingSyncRequest :=
  { req with
    retryCount := req.retryCount + 1
    lastRetryAt := now
    nextRetryAt :=
      now + backoffAfter policy.maxBackoff (req.retryCount + 1) cfg.initialBackoff }

/-- Where the retries of one pass stand: the pending requests, the peers that a request was
moved to, and what was sent. -/
structure Retries where
  pendingReqs : GoMap UInt16 PendingSyncRequest
  moved : List UInt16
  sent : SentRequests

/-- Another peer than ourselves and the one asked before, if there is one. -/
def retryPeer (validators : List Validator) (me target : UInt16) : UInt16 :=
  match validators.find? fun v => v.index ≠ me ∧ v.index ≠ target with
  | some v => if 1 < validators.length then v.index else target
  | none => target

def retrySyncRequest (validators : List Validator) (env : SyncEnv) (st : Retries)
    (req : PendingSyncRequest) : Retries :=
  let targetPeer := retryPeer validators env.me req.targetPeer
  let st :=
    if st.pendingReqs.has req.targetPeer && !st.moved.contains req.targetPeer then
      { st with
        pendingReqs :=
          (st.pendingReqs.del req.targetPeer).set targetPeer { req with targetPeer }
        moved := targetPeer :: st.moved }
    else st
  let syncReq : SyncRequest :=
    { fromRound := req.fromRound, toRound := req.toRound, requester := env.me }
  { st with sent := st.sent ++ if env.reachable targetPeer then [(targetPeer, syncReq)] else [] }

/-- The pending requests that are due, with the peers they are filed under. -/
def dueRequests (s : SyncManager) (now : Int) (order : IterOrder UInt16) :
    List (UInt16 × PendingSyncRequest) :=
  (order.arrange s.pendingReqs.keys).filterMap fun validator =>
    ((s.pendingReqs.get validator).filter fun req => decide (req.nextRetryAt < now)).map
      fun req => (validator, req)

def cleanupTimedOutRequests (s : SyncManager) (policy : SyncPolicy) (env : SyncEnv)
    (order : IterOrder UInt16) : SyncManager × SentRequests :=
  let due := s.dueRequests env.now order
  let toRemove := due.filter fun e => decide (policy.maxRetries ≤ e.2.retryCount)
  let toRetry := (due.filter fun e => !decide (policy.maxRetries ≤ e.2.retryCount)).map fun e =>
    (e.1, retried s.cfg policy env.now e.2)
  let pendingReqs := toRetry.foldl (fun reqs e => reqs.set e.1 e.2)
    (s.pendingReqs.delAll (toRemove.map (·.1)))
  let retried := (toRetry.map (·.2)).foldl (retrySyncRequest s.validatorSet.validators env)
    { pendingReqs, moved := [], sent := [] }
  ({ s with pendingReqs := retried.pendingReqs }, retried.sent)

/-! ## Responses without a callback -/

section

variable {BS CS : Type} [BatchStore BS] [CertificateStore CS]

/-- Certificates added one after the other, whatever becomes of each. -/
def addAll (dag : Dag) (certStore : CS) (certs : List Certificate) : Dag × CS :=
  certs.foldl (fun st cert => (st.1.addCertificate st.2 cert).2) (dag, certStore)

/-- A response with no callback wired: what verifies goes to the DAG. -/
def handleSyncResponseDirect [Crypto] (s : SyncManager) (batchStore : BS) (dag : Dag)
    (certStore : CS) (resp : SyncResponse) (sender : UInt16) : SyncManager × BS × Dag × CS :=
  let handled := s.handleSyncResponse batchStore resp sender
  (handled.2.1, handled.2.2, addAll dag certStore handled.1)

end

/-! ## What is recorded -/

variable (s : SyncManager) (env : SyncEnv)

theorem peerHighest_requestSync (validator : UInt16) (fromRound toRound : UInt64) (me : UInt16)
    (now : Int) :
    (s.requestSync validator fromRound toRound me now).2.peerHighest = s.peerHighest := rfl

theorem peerHighest_requestPeerCatchUp (peer me : UInt16) (now : Int) :
    (s.requestPeerCatchUp peer me now).2.peerHighest = s.peerHighest := by
  unfold requestPeerCatchUp
  split <;> rfl

theorem peerHighest_requestFirst (fromRound toRound : UInt64) (validators : List Validator)
    (s : SyncManager) :
    (requestFirst env fromRound toRound validators s).2.1.peerHighest = s.peerHighest := by
  induction validators generalizing s with
  | nil => rfl
  | cons v vs ih =>
    rw [requestFirst]
    split
    · exact ih s
    · split
      · rfl
      · exact ih _

theorem peerHighest_catchUp (targetRound : UInt64) :
    (s.catchUp env targetRound).2.1.peerHighest = s.peerHighest := by
  unfold catchUp
  split
  · rfl
  · exact peerHighest_requestFirst _ _ _ _ s

theorem peerHighest_probePeers (validators : List Validator) (s : SyncManager) :
    (probePeers env validators s).1.peerHighest = s.peerHighest := by
  induction validators generalizing s with
  | nil => rfl
  | cons v vs ih =>
    rw [probePeers]
    split
    · exact ih s
    · exact ih _

theorem peerHighest_checkAndSync (policy : SyncPolicy) (env : SyncEnv) :
    (s.checkAndSync policy env).1.peerHighest = s.peerHighest := by
  unfold checkAndSync
  rw [peerHighest_probePeers]
  split
  · exact s.peerHighest_catchUp env s.highestPeer
  · rfl

theorem peerHighest_cleanupTimedOutRequests (policy : SyncPolicy) (env : SyncEnv)
    (order : IterOrder UInt16) :
    (s.cleanupTimedOutRequests policy env order).1.peerHighest = s.peerHighest := rfl

theorem get_recordPeerHighestRound {s : SyncManager} {peer p : UInt16} {round r : UInt64}
    (h : (s.recordPeerHighestRound peer round).peerHighest.get p = some r) :
    s.peerHighest.get p = some r ∨ (p = peer ∧ r = round) := by
  unfold recordPeerHighestRound at h
  split at h
  · rcases GoMap.get_set_eq_some h with ⟨hp, hr⟩ | ⟨-, hold⟩
    · exact .inr ⟨hp, hr⟩
    · exact .inl hold
  · split at h
    · rcases GoMap.get_set_eq_some h with ⟨hp, hr⟩ | ⟨-, hold⟩
      · exact .inr ⟨hp, hr⟩
      · exact .inl hold
    · exact .inl h

theorem peerHighest_handleSyncResponse [Crypto] {BS : Type} [BatchStore BS] (batchStore : BS)
    (resp : SyncResponse) (sender : UInt16) :
    (s.handleSyncResponse batchStore resp sender).2.1.peerHighest =
      (s.recordPeerHighestRound sender resp.toRound).peerHighest := by
  have hpending : ({ s with pendingReqs := s.pendingReqs.del sender }.recordPeerHighestRound
      sender resp.toRound).peerHighest =
        (s.recordPeerHighestRound sender resp.toRound).peerHighest := by
    unfold recordPeerHighestRound
    dsimp only
    split
    · rfl
    · split <;> rfl
  unfold handleSyncResponse
  dsimp only
  split
  · exact hpending
  · exact hpending

end SyncManager

end DagMempool
