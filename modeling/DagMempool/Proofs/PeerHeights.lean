import DagMempool.Network.Link
import DagMempool.Proofs.SyncWindow

/-!
# The heights recorded for peers

The requester takes the last round of a response for the height of its peer. It is that,
or the end of a window below it, for a request that asks for rounds the responder has: up
to a round that is not above its highest, and from a round that is at most one above that
end. The highest round of a DAG never goes down, so a height that was true when a response
was made is still no more than the truth when it arrives, however late.

A request for more is answered as if the rounds were there. The end that was asked for is
sent back as it is; and a start beyond the end makes the width of the window wrap around,
so that it is cut to the batch size and ends that far above the start. Both happen between
honest nodes: a node that is ahead of its peer probes from its own next round on.
-/

namespace DagMempool

namespace Dag

variable {CS : Type} [CertificateStore CS]

theorem highestRound_le_addCertificate (d : Dag) (certStore : CS) (cert : Certificate) :
    d.highestRound ≤ (d.addCertificate certStore cert).2.1.highestRound := by
  have hensure := (d.ensureRound_marks cert.round).2.2
  rcases d.addCertificate_cases certStore cert with ⟨err, heq, -⟩ | ⟨-, heq⟩
  · rw [heq, hensure]
    exact UInt64.le_refl _
  · have hinsert : ((d.ensureRound cert.round).insertCertificate cert).highestRound =
        if (d.ensureRound cert.round).highestRound < cert.round then cert.round
        else (d.ensureRound cert.round).highestRound := rfl
    rw [heq, hinsert, hensure]
    split
    · next hlt => exact UInt64.le_of_lt hlt
    · exact UInt64.le_refl _

end Dag

theorem DagState.highestRound_le_step {CS : Type} [CertificateStore CS] (s : DagState CS)
    (e : DagEvent) : s.dag.highestRound ≤ (s.step e).1.dag.highestRound := by
  cases e with
  | addCertificate cert => exact s.dag.highestRound_le_addCertificate s.certStore cert
  | setCommittedRound | pruneRound | pruneRoundsBefore => exact UInt64.le_refl _
  | loadRound round =>
    rw [step]
    unfold Dag.loadRound
    split
    · exact UInt64.le_refl _
    · split
      · next hlt => exact UInt64.le_of_lt hlt
      · exact UInt64.le_refl _
  | causalHistory cert =>
    obtain ⟨cache, keys, heq⟩ := s.dag.sameRounds_causalHistory s.certStore cert
    rw [step, heq]
    exact UInt64.le_refl _

namespace SyncManager

def targetRound (dag : Dag) (req : SyncRequest) : UInt64 :=
  if req.toRound = 0 then dag.highestRound else req.toRound

/-- A request for rounds the responder has: up to one it has reached, and from the one after
that at most. -/
def AsksWithin (dag : Dag) (req : SyncRequest) : Prop :=
  targetRound dag req ≤ dag.highestRound ∧
    req.fromRound.toNat ≤ (targetRound dag req).toNat + 1
deriving Decidable

theorem lastRound_le_highestRound (s : SyncManager) {dag : Dag} {req : SyncRequest}
    (hsize : 1 ≤ s.cfg.syncBatchSize) (h : AsksWithin dag req) :
    s.lastRound dag req ≤ dag.highestRound := by
  obtain ⟨hto, hfrom⟩ := h
  have hlast : s.lastRound dag req =
      if s.cfg.syncBatchSize < targetRound dag req - req.fromRound + 1 then
        req.fromRound + s.cfg.syncBatchSize - 1
      else targetRound dag req := rfl
  rw [hlast]
  generalize targetRound dag req = toRound at hto hfrom ⊢
  simp only [UInt64.le_iff_toNat_le, UInt64.toNat_one] at hsize hto ⊢
  split
  · next hcut =>
      simp only [UInt64.lt_iff_toNat_lt, UInt64.toNat_add, UInt64.toNat_sub, UInt64.toNat_one]
        at hcut ⊢
      omega
  · exact hto

end SyncManager

namespace SyncLink

section

variable [Crypto] [SliceSort] {BS CS : Type} [BatchStore BS] [CertificateStore CS]
variable {peer : UInt16} {s : SyncLink BS CS}

/-- Whatever is served asks for what the responder has. -/
def ServesWithin (s : SyncLink BS CS) : LinkEvent → Prop
  | .serve i _ => ∀ req ∈ s.requests[i]?, SyncManager.AsksWithin s.dag.dag req
  | _ => True

omit [Crypto] [SliceSort] [BatchStore BS] [CertificateStore CS] in
instance (s : SyncLink BS CS) : DecidablePred s.ServesWithin
  | .serve .. => inferInstanceAs (Decidable (∀ req ∈ _, SyncManager.AsksWithin _ req))
  | .requestSync .. | .requestPeerCatchUp .. | .catchUp .. | .checkAndSync .. | .retry .. |
    .receive .. | .dagEvent .. => .isTrue trivial

/-- Nothing sent or recorded is above the responder's highest round. -/
structure Truthful (peer : UInt16) (s : SyncLink BS CS) : Prop where
  size : 1 ≤ s.responder.cfg.syncBatchSize
  responses : ∀ resp ∈ s.responses, resp.toRound ≤ s.dag.dag.highestRound
  recorded : ∀ r, s.requester.peerHighest.get peer = some r → r ≤ s.dag.dag.highestRound

omit [Crypto] [SliceSort] [BatchStore BS] [CertificateStore CS] in
theorem Truthful.send (h : Truthful peer s) {requester : SyncManager} (sent : SentRequests)
    (hsame : requester.peerHighest = s.requester.peerHighest) :
    Truthful peer (s.send peer requester sent) where
  size := h.size
  responses := h.responses
  recorded r hr := h.recorded r (hsame ▸ hr)

theorem step_truthful (h : Truthful peer s) {e : LinkEvent} (he : s.ServesWithin e) :
    Truthful peer (s.step peer e).1 := by
  cases e with
  | requestSync fromRound toRound env =>
    exact h.send _ (s.requester.peerHighest_requestSync peer fromRound toRound env.me env.now)
  | requestPeerCatchUp env =>
    exact h.send _ (s.requester.peerHighest_requestPeerCatchUp peer env.me env.now)
  | catchUp targetRound env => exact h.send _ (s.requester.peerHighest_catchUp env targetRound)
  | checkAndSync policy env =>
    exact h.send _ (s.requester.peerHighest_checkAndSync policy env)
  | retry policy env order =>
    exact h.send _ (s.requester.peerHighest_cleanupTimedOutRequests policy env order)
  | serve i order =>
    rw [step]
    split
    · exact h
    · next req hreq =>
        have hwithin := he req hreq
        unfold SyncLink.serve
        split
        · exact h
        · next resp hresp =>
            obtain ⟨certs, -, rfl⟩ := SyncManager.handleSyncRequest_eq_some.mp hresp
            refine ⟨h.size, fun resp hmem => ?_, h.recorded⟩
            rcases List.mem_append.mp hmem with hold | hnew
            · exact h.responses resp hold
            · rw [List.mem_singleton.mp hnew]
              exact s.responder.lastRound_le_highestRound h.size hwithin
  | receive i =>
    rw [step]
    split
    · exact h
    · next resp hresp =>
        refine ⟨h.size, h.responses, fun r hr => ?_⟩
        have hrecord : (s.requester.recordPeerHighestRound peer resp.toRound).peerHighest.get
            peer = some r := by
          rw [← s.requester.peerHighest_handleSyncResponse s.batches resp peer]
          exact hr
        rcases SyncManager.get_recordPeerHighestRound hrecord with hold | ⟨-, rfl⟩
        · exact h.recorded r hold
        · exact h.responses resp (List.mem_of_getElem? hresp)
  | dagEvent e =>
    have hle := s.dag.highestRound_le_step e
    exact ⟨h.size, fun resp hmem => UInt64.le_trans (h.responses resp hmem) hle,
      fun r hr => UInt64.le_trans (h.recorded r hr) hle⟩

/-- If only such requests are served, no height is recorded that the responder has not
reached, over any exchange of requests and responses in any order. -/
theorem peerHighest_le_highestRound (peer : UInt16) {log : List SyncResponse}
    (hreach : Reach peer (fun s _ e => s.ServesWithin e) s log) :
    ∀ r, s.requester.peerHighest.get peer = some r → r ≤ s.dag.dag.highestRound := by
  have htruthful : Truthful peer s := by
    refine Run.Reach.invariant (I := fun s _ => Truthful peer s) ?_ ?_ hreach
    · intro s hfresh
      refine ⟨hfresh.size, fun resp hmem => ?_, fun r hr => ?_⟩
      · rw [hfresh.responses] at hmem
        exact absurd hmem List.not_mem_nil
      · rw [hfresh.peerHighest] at hr
        exact absurd hr GoMap.get_empty_ne
    · exact fun s _ e h he => step_truthful h he
  exact htruthful.recorded

end

section

open IdealScheme

def idealLink : SyncLink MemoryBatchStore MemoryCertificateStore :=
  { requester := SyncManager.idealSync 100, batches := .new
    responder := SyncManager.idealSync 100, dag := DagState.twoRounds, batchStore := .new
    requests := [], responses := [] }

/-- The requester is validator `0`, at some round of its own, and reaches all others. -/
def idealSyncEnv (localRound : UInt64) : SyncEnv :=
  { me := 0, now := 1, localRound, reachable := fun _ => true }

def idealLinkRun (events : List LinkEvent) : SyncLink MemoryBatchStore MemoryCertificateStore :=
  (Run.exec (step 1) idealLink [] events).1

theorem reach_idealLinkRun
    {ok : SyncLink MemoryBatchStore MemoryCertificateStore → List SyncResponse → LinkEvent → Prop}
    {events : List LinkEvent} (hok : Run.AllOk (step 1) ok idealLink [] events) :
    Reach 1 ok (idealLinkRun events) (Run.exec (step 1) idealLink [] events).2 :=
  Run.Reach.of_exec ⟨by decide, rfl, rfl, rfl⟩ hok

/-- A poll by a requester at some round, its answer, and the answer once more. -/
def pollAt (localRound : UInt64) : List LinkEvent :=
  [.checkAndSync { syncThreshold := 5, maxRetries := 5, maxBackoff := 30 }
      (idealSyncEnv localRound),
    .serve 0 .listed, .receive 0, .receive 0]

theorem peerHighest_le_highestRound_poll :
    (idealLinkRun (pollAt 0)).requester.peerHighest.get 1 = some 1 ∧
      1 ≤ (idealLinkRun (pollAt 0)).dag.dag.highestRound := by
  have hrecorded : (idealLinkRun (pollAt 0)).requester.peerHighest.get 1 = some 1 := by
    decide +kernel
  exact ⟨hrecorded, peerHighest_le_highestRound 1 (reach_idealLinkRun (by decide +kernel)) 1
    hrecorded⟩

/-- A requester told to catch up to a round, and the answer. -/
def catchUpTo (targetRound : UInt64) : List LinkEvent :=
  [.catchUp targetRound (idealSyncEnv 0), .serve 0 .listed, .receive 0]

/-- A requester at round `20` polls the responder at round `1`, or one with nothing catches
up to round `50`: the heights recorded are `120` and `50`. -/
theorem peerHighest_phantom :
    ((idealLinkRun (pollAt 20)).dag.dag.highestRound = 1 ∧
      (idealLinkRun (pollAt 20)).requester.peerHighest.get 1 = some 120) ∧
    ((idealLinkRun (catchUpTo 50)).dag.dag.highestRound = 1 ∧
      (idealLinkRun (catchUpTo 50)).requester.peerHighest.get 1 = some 50) := by
  refine ⟨⟨?_, ?_⟩, ?_, ?_⟩ <;> decide +kernel

end

end SyncLink

end DagMempool
