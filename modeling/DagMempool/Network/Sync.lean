import DagMempool.Dag.Dag
import DagMempool.Network.Messages

/-!
# Synchronisation

Serving and taking sync responses. A response is taken in two parts: its batches
are saved one by one, and the first failure ends the whole response; then its
certificates are verified, and those that pass are delivered one after the other
through the callback, which treats them like certificates that peers broadcast.
-/

namespace DagMempool

structure SyncConfig where
  syncBatchSize : UInt64
  initialBackoff : Int

structure PendingSyncRequest where
  fromRound : UInt64
  toRound : UInt64
  sentAt : Int
  retryCount : Nat
  lastRetryAt : Int
  nextRetryAt : Int
  targetPeer : UInt16

structure SyncManager where
  cfg : SyncConfig
  validatorSet : SimpleValidatorSet
  pendingReqs : GoMap UInt16 PendingSyncRequest
  peerHighest : GoMap UInt16 UInt64

namespace SyncManager

def new (cfg : SyncConfig) (validatorSet : SimpleValidatorSet) : SyncManager :=
  { cfg, validatorSet, pendingReqs := ∅, peerHighest := ∅ }

def requestSync (s : SyncManager) (validator : UInt16) (fromRound toRound : UInt64)
    (me : UInt16) (now : Int) : SyncRequest × SyncManager :=
  let pending : PendingSyncRequest :=
    { fromRound, toRound, sentAt := now, retryCount := 0, lastRetryAt := now
      nextRetryAt := now + s.cfg.initialBackoff, targetPeer := validator }
  ({ fromRound, toRound, requester := me },
    { s with pendingReqs := s.pendingReqs.set validator pending })

def requestPeerCatchUp (s : SyncManager) (peer me : UInt16) (now : Int) :
    Option SyncRequest × SyncManager :=
  if s.pendingReqs.has peer then (none, s)
  else
    let requested := s.requestSync peer 0 0 me now
    (some requested.1, requested.2)

def recordPeerHighestRound (s : SyncManager) (peer : UInt16) (round : UInt64) : SyncManager :=
  match s.peerHighest.get peer with
  | none => { s with peerHighest := s.peerHighest.set peer round }
  | some cur =>
    if cur < round then { s with peerHighest := s.peerHighest.set peer round } else s

section

variable {BS CS : Type} [BatchStore BS] [CertificateStore CS]

/-- The batches the certificates refer to that are stored, each once. -/
def collectBatches (batchStore : BS) (certs : List Certificate) : List Batch :=
  ((certs.flatMap fun cert => cert.header.batchRefs.map (·.digest)).eraseDups).filterMap
    fun digest => (BatchStore.getBatch batchStore digest).toOption

/-- The last round a request is answered up to; the arithmetic wraps around. -/
def lastRound (s : SyncManager) (dag : Dag) (req : SyncRequest) : UInt64 :=
  let toRound := if req.toRound = 0 then dag.highestRound else req.toRound
  if s.cfg.syncBatchSize < toRound - req.fromRound + 1 then
    req.fromRound + s.cfg.syncBatchSize - 1
  else toRound

/-- The response; `none` where collecting the certificates does not end. -/
def handleSyncRequest [SliceSort] (s : SyncManager) (dag : Dag) (batchStore : BS)
    (certStore : CS) (order : IterOrder Certificate) (req : SyncRequest) :
    Option SyncResponse :=
  let toRound := s.lastRound dag req
  match dag.getOrderedCertificates certStore order req.fromRound toRound with
  | none => none
  | some certificates =>
    some
      { certificates, batches := collectBatches batchStore certificates
        fromRound := req.fromRound, toRound }

/-- The batches are saved up to the first that fails. -/
def saveBatches (batchStore : BS) : List Batch → Except GoError Unit × BS
  | [] => (.ok (), batchStore)
  | b :: bs =>
    let saved := BatchStore.saveBatch batchStore b
    match saved.1 with
    | .error err => (.error err, saved.2)
    | .ok () => saveBatches saved.2 bs

/-- The certificates to deliver, the manager and the store after a response. -/
def handleSyncResponse [Crypto] (s : SyncManager) (batchStore : BS) (resp : SyncResponse)
    (sender : UInt16) : List Certificate × SyncManager × BS :=
  let s := { s with pendingReqs := s.pendingReqs.del sender }
  let s := s.recordPeerHighestRound sender resp.toRound
  let saved := saveBatches batchStore resp.batches
  match saved.1 with
  | .error _ => ([], s, saved.2)
  | .ok () =>
    (resp.certificates.filter fun cert => decide (cert.verify s.validatorSet = .ok ()),
      s, saved.2)

/-! ## What a response does -/

variable (s : SyncManager) (batchStore : BS)

theorem saveBatches_saved (bs : List Batch) :
    BatchesSaved (· ∈ bs) batchStore (saveBatches batchStore bs).2 := by
  induction bs generalizing batchStore with
  | nil => exact .refl _
  | cons b bs ih =>
    have hone : BatchesSaved (· ∈ b :: bs) batchStore
        (BatchStore.saveBatch batchStore b).2 := .one (by simp)
    unfold saveBatches
    dsimp only
    split
    · exact hone
    · exact hone.trans ((ih _).mono fun x hx => List.mem_cons_of_mem b hx)

theorem handleSyncResponse_saved [Crypto] (resp : SyncResponse) (sender : UInt16) :
    BatchesSaved (· ∈ resp.batches) batchStore
      (s.handleSyncResponse batchStore resp sender).2.2 := by
  unfold handleSyncResponse
  dsimp only
  split
  · exact saveBatches_saved _ _
  · exact saveBatches_saved _ _

theorem recordPeerHighestRound_validatorSet (peer : UInt16) (round : UInt64) :
    (s.recordPeerHighestRound peer round).validatorSet = s.validatorSet := by
  unfold recordPeerHighestRound
  split
  · rfl
  · split <;> rfl

theorem requestPeerCatchUp_validatorSet (peer me : UInt16) (now : Int) :
    (s.requestPeerCatchUp peer me now).2.validatorSet = s.validatorSet := by
  unfold requestPeerCatchUp
  split <;> rfl

theorem handleSyncResponse_validatorSet [Crypto] (resp : SyncResponse) (sender : UInt16) :
    (s.handleSyncResponse batchStore resp sender).2.1.validatorSet = s.validatorSet := by
  unfold handleSyncResponse
  dsimp only
  split
  · exact recordPeerHighestRound_validatorSet _ _ _
  · exact recordPeerHighestRound_validatorSet _ _ _

theorem verify_of_delivered [Crypto] {s : SyncManager} {batchStore : BS}
    {resp : SyncResponse} {sender : UInt16} {c : Certificate}
    (h : c ∈ (s.handleSyncResponse batchStore resp sender).1) :
    c ∈ resp.certificates ∧ c.verify s.validatorSet = .ok () := by
  unfold handleSyncResponse at h
  dsimp only at h
  split at h
  · cases h
  · obtain ⟨hmem, hver⟩ := List.mem_filter.mp h
    rw [recordPeerHighestRound_validatorSet] at hver
    exact ⟨hmem, of_decide_eq_true hver⟩

end

end SyncManager

end DagMempool
