import DagMempool.Node.Looseberry
import DagMempool.Primary.FetcherPass
import DagMempool.Proofs.SyncRetries

/-!
# Where retries go

A sync request and a request for a batch that are not answered are sent again, to the first
validator that is not the one asked last. So the retries of one request go back and forth
between two peers, whatever the number of peers, and only with few peers or few retries are
the first sends to different ones.

The requests are followed through any number of passes of the cleanup, at any times and in any
order, with whatever else is pending.
-/

namespace DagMempool

open FirstOther Refile

namespace SyncManager

/-! ## Sync requests

A request is known by the peer it is filed under, and a retry files it anew. `follow` is where it
goes, and the sends of one request are some first ones of the sequence of first other peers; all
of them, if it is the only one. -/

/-- A pass at some time. A send is counted whether the network takes it or not, and nothing
else of a pass depends on that, or on our highest round. -/
def passEnv (me : UInt16) (now : Int) : SyncEnv :=
  { me, now, localRound := 0, reachable := fun _ => true }

def passStep (policy : SyncPolicy) (me : UInt16) (s : SyncManager)
    (pass : Int × IterOrder UInt16) : SyncManager × SentRequests :=
  s.cleanupTimedOutRequests policy (passEnv me pass.1) pass.2

/-- The peers whose requests are pending after a pass, under the peers they are filed under: the
moves of the pass, made with the names of the peers in place of their requests. -/
def origins (s : SyncManager) (policy : SyncPolicy) (me : UInt16)
    (pass : Int × IterOrder UInt16) : GoMap UInt16 UInt16 :=
  (moveAll (s.nextPeer (passEnv me pass.1)) id
    { map := (s.remaining policy pass.1).keys.foldl (fun names v => names.set v v) ∅, moved := [] }
    (s.retriedPeers policy pass.1 pass.2)).map

/-- Where the request that is filed under `peer` is after a pass, if it is still there. -/
def follow (s : SyncManager) (policy : SyncPolicy) (me : UInt16) (pass : Int × IterOrder UInt16)
    (peer : UInt16) : Option UInt16 :=
  (s.origins policy me pass).keys.find? fun v => (s.origins policy me pass).get v = some peer

/-- A pass, with the peer that one request is filed under. The output is the peers that this
request is sent to: a pass sends the requests it retries in their order. -/
def followStep (policy : SyncPolicy) (me : UInt16) (st : SyncManager × Option UInt16)
    (pass : Int × IterOrder UInt16) : (SyncManager × Option UInt16) × List UInt16 :=
  let passed := st.1.passStep policy me pass
  ((passed.1, st.2.bind (st.1.follow policy me pass)),
    (((st.1.retriedPeers policy pass.1 pass.2).zip passed.2).filter fun m => st.2 = some m.1).map
      fun m => m.2.1)

section

variable {peer : UInt16} {retries : Nat} {s : SyncManager} {policy : SyncPolicy} {me : UInt16}

theorem followStep_sends (h : s.Filed) {pass : Int × IterOrder UInt16} :
    (followStep policy me (s, some peer) pass).2 =
      if peer ∈ s.retriedPeers policy pass.1 pass.2 then
        [retryPeer s.validatorSet.validators me peer] else [] := by
  set due := (s.dueRequests pass.1 pass.2).filter fun e => !GivenUp policy e.2
  have hsent : (s.passStep policy me pass).2 = due.map fun e =>
      (retryPeer s.validatorSet.validators me e.1,
        { fromRound := e.2.fromRound, toRound := e.2.toRound, requester := me }) := by
    rw [passStep, sent_cleanupTimedOutRequests h]
    exact List.filter_eq_self.mpr fun _ _ => rfl
  have hours : (followStep policy me (s, some peer) pass).2 =
      ((s.retriedPeers policy pass.1 pass.2).filter (· == peer)).map
        (retryPeer s.validatorSet.validators me) := by
    rw [followStep, hsent, retriedPeers, List.zip_map', List.filter_map, List.map_map,
      List.filter_map, List.map_map]
    refine congrArg (List.map _) (List.filter_congr fun e _ => ?_)
    show decide (some peer = some e.1) = (e.1 == peer)
    rw [Bool.eq_iff_iff, decide_eq_true_eq, beq_iff_eq, Option.some.injEq, eq_comm]
  rw [hours, List.filter_beq]
  split
  · next hmem =>
      rw [List.count_eq_one_of_mem (s.nodup_retriedPeers policy _ _) hmem]
      rfl
  · next hmem =>
      rw [List.count_eq_zero_of_not_mem hmem]
      rfl

theorem get_names (s : SyncManager) (policy : SyncPolicy) (now : Int) (v : UInt16) :
    ((s.remaining policy now).keys.foldl (fun names v => GoMap.set names v v) ∅).get v =
      ((s.remaining policy now).get v).map fun _ => v := by
  refine GoMap.get_foldl_set id id (fun w hw hv => ?_) fun hnot => ?_
  · obtain rfl : w = v := hv
    obtain ⟨req, hget⟩ := GoMap.has_iff.mp (GoMap.mem_keys.mp hw)
    rw [hget]
    rfl
  · rw [GoMap.get_empty]
    cases hget : (s.remaining policy now).get v with
    | none => rfl
    | some req =>
      exact absurd rfl (hnot v (GoMap.mem_keys.mpr (GoMap.has_iff.mpr ⟨req, hget⟩)))

theorem get_origins {pass : Int × IterOrder UInt16} {v : UInt16}
    (h : (s.origins policy me pass).get v = some peer) :
    (v = peer ∧ peer ∉ s.retriedPeers policy pass.1 pass.2 ∧
        (s.remaining policy pass.1).has peer = true) ∨
      (v = retryPeer s.validatorSet.validators me peer ∧
        peer ∈ s.retriedPeers policy pass.1 pass.2) := by
  rcases (placed_moveAll _ _).entry v peer h with ⟨hnot, hname⟩ | ⟨w, hw, rfl, rfl⟩
  · rw [get_names, Option.map_eq_some_iff] at hname
    obtain ⟨req, hget, rfl⟩ := hname
    exact .inl ⟨rfl, hnot, GoMap.has_iff.mpr ⟨req, hget⟩⟩
  · exact .inr ⟨rfl, hw⟩

def retriesAfter (s : SyncManager) (policy : SyncPolicy) (pass : Int × IterOrder UInt16)
    (v : UInt16) : Nat :=
  let count := ((s.pendingReqs.get v).getD default).retryCount
  if v ∈ s.retriedPeers policy pass.1 pass.2 then count + 1 else count

theorem retryCount_passStep (h : s.Filed) (policy : SyncPolicy) (me : UInt16)
    (pass : Int × IterOrder UInt16) (v : UInt16) :
    ((s.passStep policy me pass).1.pendingReqs.get v).map (·.retryCount) =
      ((s.origins policy me pass).get v).map (s.retriesAfter policy pass) := by
  rw [passStep, cleanupTimedOutRequests_moves h, origins]
  refine get_moveAll_congr (fun w hw => (if_pos hw).symm) (fun w => ?_) (by rfl) v
  rw [get_names, get_renewed]
  show Option.map _ (Option.map _ ((s.remaining policy pass.1).get w)) = _
  rw [get_remaining]
  cases hget : s.pendingReqs.get w with
  | none => rfl
  | some req =>
    rw [Option.filter_some]
    cases hd : Due pass.1 req with
    | false => simp [retriesAfter, retried_iff hget, hget, passEnv, hd]
    | true =>
      cases hk : GivenUp policy req with
      | false => simp [retriesAfter, retried_iff hget, hget, passEnv, hd, hk, retried]
      | true => simp

/-- The request was lost, or it is filed under this peer and was retried so often. -/
structure Tracks (peer : UInt16) (retries : Nat) (st : SyncManager × Option UInt16) : Prop where
  filed : st.1.Filed
  place : ∀ v, st.2 = some v →
    v = peer ∧ ∃ req, st.1.pendingReqs.get peer = some req ∧ req.retryCount = retries

theorem Tracks.pass {st : SyncManager × Option UInt16} (h : Tracks peer retries st)
    (policy : SyncPolicy) (me : UInt16) (pass : Int × IterOrder UInt16) :
    ((followStep policy me st pass).2 = [] ∧
      Tracks peer retries (followStep policy me st pass).1) ∨
    ((followStep policy me st pass).2 = [retryPeer st.1.validatorSet.validators me peer] ∧
      retries < policy.maxRetries ∧
      Tracks (retryPeer st.1.validatorSet.validators me peer) (retries + 1)
        (followStep policy me st pass).1) := by
  obtain ⟨s, at'⟩ := st
  have hfiled : (s.passStep policy me pass).1.Filed :=
    h.filed.of_files (cleanupTimedOutRequests_files h.filed policy _ _)
  cases at' with
  | none => exact .inl ⟨by simp [followStep], hfiled, fun v hv => nomatch hv⟩
  | some p =>
    obtain ⟨rfl, req, hget, rfl⟩ := h.place p rfl
    -- Wherever it is found after the pass, it is there with the retries it has then.
    have hplace : ∀ v, s.follow policy me pass p = some v →
        (s.origins policy me pass).get v = some p ∧ ∃ req',
          (s.passStep policy me pass).1.pendingReqs.get v = some req' ∧
            req'.retryCount = s.retriesAfter policy pass p := by
      intro v hv
      have horigin : (s.origins policy me pass).get v = some p := by
        simpa using List.find?_some hv
      have hcount := retryCount_passStep h.filed policy me pass v
      rw [horigin, Option.map_some, Option.map_eq_some_iff] at hcount
      exact ⟨horigin, hcount⟩
    rw [followStep_sends h.filed]
    by_cases hmem : p ∈ s.retriedPeers policy pass.1 pass.2
    · obtain ⟨req', hget', -, hkeep⟩ := mem_retriedPeers.mp hmem
      obtain rfl := Option.some.inj (hget.symm.trans hget')
      rw [GivenUp, decide_eq_false_iff_not, Nat.not_le] at hkeep
      refine .inr ⟨if_pos hmem, hkeep, hfiled, fun v hv => ?_⟩
      obtain ⟨horigin, req', hreq', hcount⟩ := hplace v hv
      obtain rfl := ((get_origins horigin).resolve_left fun h => h.2.1 hmem).1
      rw [retriesAfter, if_pos hmem, hget] at hcount
      exact ⟨rfl, req', hreq', hcount⟩
    · refine .inl ⟨if_neg hmem, hfiled, fun v hv => ?_⟩
      obtain ⟨horigin, req', hreq', hcount⟩ := hplace v hv
      obtain rfl := ((get_origins horigin).resolve_right fun h => hmem h.2).1
      rw [retriesAfter, if_neg hmem, hget] at hcount
      exact ⟨rfl, req', hreq', hcount⟩

theorem Tracks.run {st : SyncManager × Option UInt16} (h : Tracks peer retries st)
    (policy : SyncPolicy) (me : UInt16) (passes : List (Int × IterOrder UInt16)) :
    ∃ j, retries + j ≤ max retries policy.maxRetries ∧
      (Run.exec (followStep policy me) st [] passes).2 =
        List.iterate (retryPeer st.1.validatorSet.validators me)
          (retryPeer st.1.validatorSet.validators me peer) j := by
  refine exec_choices (I := fun peer retries st' => st'.1.validatorSet = st.1.validatorSet ∧
    Tracks peer retries st') (fun l l' => show id (l ++ l') = id l ++ id l' from rfl) ?_
    ⟨rfl, h⟩ passes []
  rintro peer retries st' pass ⟨hvs, h⟩
  rw [← hvs]
  rcases h.pass policy me pass with ⟨hnone, hnext⟩ | ⟨hsent, hlt, hnext⟩
  · exact .inl ⟨hnone, rfl, hnext⟩
  · exact .inr ⟨hsent, hlt, rfl, hnext⟩

/-- One request and no other. -/
structure Lone (peer : UInt16) (req : PendingSyncRequest) (s : SyncManager) : Prop where
  filed : s.Filed
  pending : s.pendingReqs.get peer = some req
  others : ∀ v, v ≠ peer → s.pendingReqs.get v = none

/-- A pass right after a request is due. -/
def passAfter (req : PendingSyncRequest) : Int × IterOrder UInt16 :=
  (req.nextRetryAt + 1, .listed)

theorem due_passAfter (req : PendingSyncRequest) : Due (passAfter req).1 req = true := by
  rw [Due, decide_eq_true_eq]
  show req.nextRetryAt < req.nextRetryAt + 1
  omega

variable {req : PendingSyncRequest}

theorem Lone.mem_retriedPeers (h : Lone peer req s) (hkeep : GivenUp policy req = false)
    {v : UInt16} :
    v ∈ s.retriedPeers policy (passAfter req).1 (passAfter req).2 ↔ v = peer := by
  rw [SyncManager.mem_retriedPeers]
  constructor
  · rintro ⟨req', hget, -⟩
    by_contra hv
    exact absurd ((h.others v hv).symm.trans hget) (by simp)
  · rintro rfl
    exact ⟨req, h.pending, due_passAfter req, hkeep⟩

theorem Lone.retriedPeers_eq (h : Lone peer req s) (hkeep : GivenUp policy req = false) :
    s.retriedPeers policy (passAfter req).1 (passAfter req).2 = [peer] := by
  refine List.perm_singleton.mp ((List.perm_ext_iff_of_nodup
    (s.nodup_retriedPeers policy _ _) (List.nodup_singleton peer)).mpr fun v => ?_)
  rw [h.mem_retriedPeers hkeep, List.mem_singleton]

theorem Lone.has_renewed (h : Lone peer req s) (hkeep : GivenUp policy req = false)
    {v : UInt16} :
    (s.renewed policy (passAfter req).1 (passAfter req).2).has v = true ↔ v = peer := by
  refine ⟨fun hv => ?_, fun hv => has_of_retried ((h.mem_retriedPeers hkeep).mpr hv)⟩
  by_contra hne
  rw [SyncManager.has_renewed, GoMap.has, get_remaining, h.others v hne] at hv
  cases hv

theorem Lone.has_pass (h : Lone peer req s) (hkeep : GivenUp policy req = false) (me : UInt16)
    {v : UInt16} :
    (s.passStep policy me (passAfter req)).1.pendingReqs.has v = true ↔
      v = retryPeer s.validatorSet.validators me peer := by
  set env := passEnv me (passAfter req).1
  set renewed := s.renewed policy (passAfter req).1 (passAfter req).2
  have hmoved : Moved (s.nextPeer env) (s.resentFrom policy env) renewed [peer]
      (moveAll (s.nextPeer env) (s.resentFrom policy env) { map := renewed, moved := [] }
        [peer]) := by
    refine moved_moveAll (List.nodup_singleton peer) (by simp [renewed, h.has_renewed hkeep]) ?_
    refine vacant_singleton.mpr ?_
    by_cases hself : s.nextPeer env peer = peer
    · exact .inl hself
    · refine .inr ?_
      rw [← Bool.not_eq_true, h.has_renewed hkeep]
      exact hself
  have hpending : (s.passStep policy me (passAfter req)).1.pendingReqs =
      (moveAll (s.nextPeer env) (s.resentFrom policy env) { map := renewed, moved := [] }
        [peer]).map := by
    rw [← h.retriedPeers_eq hkeep]
    exact cleanupTimedOutRequests_moves h.filed policy env (passAfter req).2
  rw [hpending, hmoved.has, List.map_singleton, List.mem_singleton, List.mem_singleton,
    h.has_renewed hkeep]
  exact ⟨fun hv => hv.elim id fun hv => absurd hv.2 hv.1, .inl⟩

theorem Lone.get_pass (h : Lone peer req s) (hkeep : GivenUp policy req = false) (me : UInt16) :
    (s.passStep policy me (passAfter req)).1.pendingReqs.get
        (retryPeer s.validatorSet.validators me peer) =
      some (s.resent policy (passEnv me (passAfter req).1) req) := by
  obtain ⟨req', hget⟩ := GoMap.has_iff.mp ((h.has_pass hkeep me).mpr rfl)
  rw [hget]
  rcases get_cleanupTimedOutRequests h.filed hget with ⟨hnot, hold⟩ | ⟨e, he, -, rfl⟩
  · exfalso
    by_cases hself : retryPeer s.validatorSet.validators me peer = peer
    · exact hnot ((h.mem_retriedPeers hkeep).mpr hself)
    · exact absurd ((h.others _ hself).symm.trans hold) (by simp)
  · have hpeer : e.1 = peer := (h.mem_retriedPeers hkeep).mp (List.mem_map_of_mem he)
    have hreq := (mem_dueRequests.mp (List.mem_filter.mp he).1).1
    rw [hpeer, h.pending] at hreq
    rw [Option.some.inj hreq]

theorem Lone.follow_eq (h : Lone peer req s) (hkeep : GivenUp policy req = false)
    (me : UInt16) :
    s.follow policy me (passAfter req) peer =
      some (retryPeer s.validatorSet.validators me peer) := by
  have hhas : ∀ {v}, (s.origins policy me (passAfter req)).has v = true ↔
      v = retryPeer s.validatorSet.validators me peer := by
    intro v
    rw [← h.has_pass hkeep me, GoMap.has, GoMap.has,
      ← Option.isSome_map (f := s.retriesAfter policy (passAfter req)),
      ← retryCount_passStep h.filed, Option.isSome_map]
  obtain ⟨o, ho⟩ := GoMap.has_iff.mp (hhas.mpr rfl)
  have hpeer : o = peer := by
    rcases get_origins ho with ⟨-, -, hremains⟩ | ⟨-, hmem⟩
    · rw [← SyncManager.has_renewed s policy _ (passAfter req).2] at hremains
      exact (h.has_renewed hkeep).mp hremains
    · exact (h.mem_retriedPeers hkeep).mp hmem
  subst hpeer
  have hfound : (s.follow policy me (passAfter req) o).isSome = true := by
    rw [follow, List.find?_isSome]
    exact ⟨_, GoMap.mem_keys.mpr (hhas.mpr rfl), by simpa using ho⟩
  obtain ⟨v, hv⟩ := Option.isSome_iff_exists.mp hfound
  rw [hv, ← hhas.mp (GoMap.mem_keys.mp (List.mem_of_find?_eq_some hv))]

theorem Lone.pass (h : Lone peer req s) (hlt : req.retryCount < policy.maxRetries)
    (me : UInt16) :
    (followStep policy me (s, some peer) (passAfter req)).2 =
        [retryPeer s.validatorSet.validators me peer] ∧
      (followStep policy me (s, some peer) (passAfter req)).1.2 =
        some (retryPeer s.validatorSet.validators me peer) ∧
      Lone (retryPeer s.validatorSet.validators me peer)
        (s.resent policy (passEnv me (passAfter req).1) req)
        (followStep policy me (s, some peer) (passAfter req)).1.1 := by
  have hkeep : GivenUp policy req = false := by
    rw [GivenUp, decide_eq_false_iff_not]
    omega
  refine ⟨?_, h.follow_eq hkeep me, h.filed.of_files (cleanupTimedOutRequests_files h.filed _ _ _),
    h.get_pass hkeep me, fun v hv => ?_⟩
  · rw [followStep_sends h.filed, if_pos ((h.mem_retriedPeers hkeep).mpr rfl)]
  · cases hget : (s.passStep policy me (passAfter req)).1.pendingReqs.get v with
    | none => exact hget
    | some req' => exact absurd ((h.has_pass hkeep me).mp (GoMap.has_iff.mpr ⟨req', hget⟩)) hv

theorem Lone.run (h : Lone peer req s) (policy : SyncPolicy) (me : UInt16) {n : Nat}
    (hn : req.retryCount + n ≤ policy.maxRetries) :
    ∃ passes, (Run.exec (followStep policy me) (s, some peer) [] passes).2 =
      List.iterate (retryPeer s.validatorSet.validators me)
        (retryPeer s.validatorSet.validators me peer) n := by
  refine exists_exec_choices (I := fun peer retries (st : SyncManager × Option UInt16) =>
    st.1.validatorSet = s.validatorSet ∧
    st.2 = some peer ∧ ∃ req', req'.retryCount = retries ∧ Lone peer req' st.1)
    (fun l l' => show id (l ++ l') = id l ++ id l' from rfl) ?_ ⟨rfl, rfl, req, rfl, h⟩ hn []
  rintro peer retries ⟨s', _⟩ ⟨hvs, rfl, req', rfl, h⟩ hlt
  obtain ⟨hsent, hplace, hnext⟩ := h.pass hlt me
  rw [← hvs]
  exact ⟨passAfter req', hsent, rfl, hplace, s'.resent policy _ req', rfl, hnext⟩

end

/-- The first sends of a sync request that is not answered are to different peers: from any
state with a request that was sent once, whatever else is pending, through any passes. -/
def SyncVisits (vs : SimpleValidatorSet) (me first : UInt16) (maxRetries : Nat) : Prop :=
  ∀ (s : SyncManager) (policy : SyncPolicy) (passes : List (Int × IterOrder UInt16))
    (req : PendingSyncRequest), s.validatorSet = vs → policy.maxRetries = maxRetries → s.Filed →
    s.pendingReqs.get first = some req → req.retryCount = 0 →
    Visits (Looseberry.peerValidatorIndices vs me)
      (first :: (Run.exec (followStep policy me) (s, some first) [] passes).2)

theorem syncVisits_iff (vs : SimpleValidatorSet) (me first : UInt16) (maxRetries : Nat) :
    SyncVisits vs me first maxRetries ↔
      ∀ j ≤ maxRetries, Visits (Looseberry.peerValidatorIndices vs me)
        (List.iterate (retryPeer vs.validators me) first (j + 1)) := by
  constructor
  · intro h j hj
    set s := ((new { syncBatchSize := 1, initialBackoff := 0 } vs).requestSync first 0 0 me 0).2
    have hfiled : s.Filed := (filed_new _ vs).requestSync first 0 0 me 0
    have hlone : Lone first
        { fromRound := 0, toRound := 0, sentAt := 0, retryCount := 0, lastRetryAt := 0
          nextRetryAt := 0 + 0, targetPeer := first } s := by
      refine ⟨hfiled, GoMap.get_set_self _ _ _, fun v hv => ?_⟩
      show (GoMap.set _ first _).get v = none
      rw [GoMap.get_set_ne hv]
      exact GoMap.get_empty v
    let policy : SyncPolicy := { syncThreshold := 1, maxRetries, maxBackoff := 0 }
    obtain ⟨passes, hsends⟩ := hlone.run policy me (n := j) (by simpa using hj)
    have hvisits := h s policy passes _ rfl rfl hfiled hlone.pending rfl
    rw [hsends] at hvisits
    exact hvisits
  · intro h s policy passes req hvs hpolicy hfiled hget hcount
    subst hvs hpolicy
    have htracks : Tracks first 0 (s, some first) :=
      ⟨hfiled, fun v hv => ⟨(Option.some.inj hv).symm, req, hget, hcount⟩⟩
    obtain ⟨j, hj, hsends⟩ := htracks.run policy me passes
    rw [hsends]
    exact h j (by omega)

theorem retryPeer_eq {vs : SimpleValidatorSet} {me : UInt16}
    (h : 2 ≤ (Looseberry.peerValidatorIndices vs me).toFinset.card) (target : UInt16) :
    retryPeer vs.validators me target =
      firstOther (Looseberry.peerValidatorIndices vs me) target := by
  have hlen : 1 < vs.validators.length := by
    have hcard := List.toFinset_card_le (Looseberry.peerValidatorIndices vs me)
    have hfilter := List.length_filter_le (fun i => i != me) (vs.validators.map (·.index))
    rw [List.length_map] at hfilter
    rw [Looseberry.peerValidatorIndices] at hcard h
    omega
  have hfind : (Looseberry.peerValidatorIndices vs me).find? (fun v => v != target) =
      (vs.validators.find? fun v => v.index ≠ me ∧ v.index ≠ target).map (·.index) := by
    rw [Looseberry.peerValidatorIndices, List.find?_filter, List.find?_map]
    refine congrArg (fun p => (vs.validators.find? p).map (·.index)) (funext fun v => ?_)
    simp [Bool.decide_and]
  rw [firstOther, hfind, retryPeer]
  cases vs.validators.find? fun v => v.index ≠ me ∧ v.index ≠ target with
  | none => rfl
  | some v => simp [hlen]

end SyncManager

namespace BatchFetcher

/-! ## Requests for batches

These are known by their batch and stay where they are, so each is sent as often as it may be
whatever else is asked for. -/

def fetchStep (bf : BatchFetcher) (pass : Int × IterOrder PendingBatchRequest) :
    BatchFetcher × List Request :=
  bf.cleanupTimedOutRequests pass.2 pass.1

def fetchesOf (digest : Hash) (sent : List Request) : List UInt16 :=
  (sent.filter fun r => decide (r.2 = digest)).map (·.1)

/-- The request for a batch, if it is still there: whom it was sent to last, and its retries. -/
structure Follows (digest : Hash) (validator : UInt16) (retries : Nat) (bf : BatchFetcher) :
    Prop where
  owned : bf.Owned
  request : ∀ req, bf.pendingRequests.get digest = some req →
    req.validator = validator ∧ req.retries = retries

section

variable {bf : BatchFetcher} {digest : Hash} {validator : UInt16} {retries : Nat}

theorem fetchStep_frame (bf : BatchFetcher) (pass : Int × IterOrder PendingBatchRequest) :
    (bf.fetchStep pass).1.validators = bf.validators ∧ (bf.fetchStep pass).1.cfg = bf.cfg := by
  obtain ⟨reqs, hcleanup⟩ := bf.cleanupTimedOutRequests_eq pass.2 pass.1
  rw [fetchStep, hcleanup]
  exact ⟨rfl, rfl⟩

theorem fetchesOf_fetchStep (h : bf.Owned) (hne : bf.validators ≠ [])
    (pass : Int × IterOrder PendingBatchRequest) (digest : Hash) :
    fetchesOf digest (bf.fetchStep pass).2 =
      (((bf.pendingRequests.get digest).filter fun req =>
        bf.Late pass.1 req && decide (req.retries < bf.cfg.maxRetries)).map fun req =>
          firstOther bf.validators req.validator).toList := by
  set ours := (bf.retriedRequests pass.2 pass.1).filter fun req => decide (req.digest = digest)
  have hsends : fetchesOf digest (bf.fetchStep pass).2 =
      ours.map fun req => firstOther bf.validators req.validator := by
    rw [fetchStep, sent_cleanupTimedOutRequests hne, fetchesOf, List.filter_map, List.map_map]
    rfl
  have hmem : ∀ req, req ∈ ours ↔ (bf.pendingRequests.get digest).filter (fun req =>
      bf.Late pass.1 req && decide (req.retries < bf.cfg.maxRetries)) = some req := by
    intro req
    rw [List.mem_filter, retriedRequests, mem_timedOut h, Option.filter_eq_some_iff,
      Bool.and_eq_true, decide_eq_true_eq (p := req.digest = digest)]
    constructor
    · rintro ⟨⟨hget, hlate⟩, rfl⟩
      exact ⟨hget, hlate⟩
    · rintro ⟨hget, hlate⟩
      obtain rfl := h digest req hget
      exact ⟨⟨hget, hlate⟩, rfl⟩
  have hnodup : (ours.map (·.digest)).Nodup := by
    have hkeys : ((pass.2.arrange bf.pendingRequests.values).map (·.digest)).Nodup := by
      rw [((pass.2.perm _).map _).nodup_iff, GoMap.map_values_eq_keys h]
      exact GoMap.nodup_keys _
    exact hkeys.sublist ((List.filter_sublist.trans
      (List.filter_sublist.trans List.filter_sublist)).map _)
  rw [hsends]
  cases hreq : (bf.pendingRequests.get digest).filter fun req =>
      bf.Late pass.1 req && decide (req.retries < bf.cfg.maxRetries) with
  | none =>
    have hnil : ours = [] := List.eq_nil_iff_forall_not_mem.mpr fun req hin => by
      rw [hmem, hreq] at hin
      cases hin
    rw [hnil]
    rfl
  | some req =>
    have hone : ours = [req] := by
      refine List.perm_singleton.mp ((List.perm_ext_iff_of_nodup hnodup.of_map
        (List.nodup_singleton req)).mpr fun req' => ?_)
      rw [hmem, hreq, List.mem_singleton, Option.some.injEq, eq_comm]
    rw [hone]
    rfl

theorem Follows.pass (h : Follows digest validator retries bf) (hne : bf.validators ≠ [])
    (pass : Int × IterOrder PendingBatchRequest) :
    (fetchesOf digest (bf.fetchStep pass).2 = [] ∧
      Follows digest validator retries (bf.fetchStep pass).1) ∨
    (fetchesOf digest (bf.fetchStep pass).2 = [firstOther bf.validators validator] ∧
      retries < bf.cfg.maxRetries ∧
      Follows digest (firstOther bf.validators validator) (retries + 1)
        (bf.fetchStep pass).1) := by
  have howned : (bf.fetchStep pass).1.Owned := h.owned.cleanupTimedOutRequests pass.2 pass.1
  have hafter : (bf.fetchStep pass).1.pendingRequests.get digest =
      (bf.pendingRequests.get digest).bind (bf.afterPass pass.1) :=
    get_cleanupTimedOutRequests h.owned pass.2 pass.1 digest
  rw [fetchesOf_fetchStep h.owned hne]
  cases hget : bf.pendingRequests.get digest with
  | none =>
    rw [hget] at hafter
    exact .inl ⟨rfl, howned, fun req hreq => absurd (hafter.symm.trans hreq) (by simp)⟩
  | some req =>
    obtain ⟨rfl, rfl⟩ := h.request req hget
    rw [hget, Option.bind_some, afterPass] at hafter
    by_cases hlate : bf.Late pass.1 req = true
    · rw [if_pos hlate] at hafter
      by_cases hlt : req.retries < bf.cfg.maxRetries
      · rw [if_pos hlt] at hafter
        refine .inr ⟨by simp [hlate, hlt], hlt, howned, fun req' hreq' => ?_⟩
        rw [← Option.some.inj (hafter.symm.trans hreq')]
        exact ⟨rfl, rfl⟩
      · rw [if_neg hlt] at hafter
        refine .inl ⟨by simp [Nat.not_lt.mp hlt], howned, fun req' hreq' => ?_⟩
        exact absurd (hafter.symm.trans hreq') (by simp)
    · rw [if_neg hlate] at hafter
      refine .inl ⟨by simp [hlate], howned, fun req' hreq' => ?_⟩
      rw [← Option.some.inj (hafter.symm.trans hreq')]
      exact ⟨rfl, rfl⟩

theorem fetchesOf_append (sent sent' : List Request) :
    fetchesOf digest (sent ++ sent') = fetchesOf digest sent ++ fetchesOf digest sent' := by
  rw [fetchesOf, List.filter_append, List.map_append]
  rfl

theorem Follows.run (h : Follows digest validator retries bf) (hne : bf.validators ≠ [])
    (passes : List (Int × IterOrder PendingBatchRequest)) :
    ∃ j, retries + j ≤ max retries bf.cfg.maxRetries ∧
      fetchesOf digest (Run.exec fetchStep bf [] passes).2 =
        List.iterate (firstOther bf.validators) (firstOther bf.validators validator) j := by
  refine exec_choices (I := fun validator retries bf' => (bf'.validators = bf.validators ∧
    bf'.cfg = bf.cfg) ∧ Follows digest validator retries bf') fetchesOf_append ?_
    ⟨⟨rfl, rfl⟩, h⟩ passes []
  rintro validator retries bf' pass ⟨⟨hvs, hcfg⟩, h⟩
  rw [← hvs, ← hcfg]
  rcases h.pass (by rw [hvs]; exact hne) pass with ⟨hnone, hnext⟩ | ⟨hsent, hlt, hnext⟩
  · exact .inl ⟨hnone, bf'.fetchStep_frame pass, hnext⟩
  · exact .inr ⟨hsent, hlt, bf'.fetchStep_frame pass, hnext⟩

theorem Owned.pass (h : bf.Owned) (hne : bf.validators ≠ []) {req : PendingBatchRequest}
    (hget : bf.pendingRequests.get digest = some req) (hlt : req.retries < bf.cfg.maxRetries) :
    ∃ pass req', fetchesOf digest (bf.fetchStep pass).2 =
        [firstOther bf.validators req.validator] ∧
      (bf.fetchStep pass).1.pendingRequests.get digest = some req' ∧
      req'.validator = firstOther bf.validators req.validator ∧ req'.retries = req.retries + 1 := by
  let pass : Int × IterOrder PendingBatchRequest :=
    (req.requestAt + bf.cfg.requestTimeout + 1, .listed)
  have hlate : bf.Late pass.1 req = true := by
    rw [Late, decide_eq_true_eq]
    show req.requestAt < req.requestAt + bf.cfg.requestTimeout + 1 - bf.cfg.requestTimeout
    omega
  have hafter := get_cleanupTimedOutRequests h pass.2 pass.1 digest
  rw [hget, Option.bind_some, afterPass, if_pos hlate, if_pos hlt] at hafter
  refine ⟨pass, _, ?_, hafter, rfl, rfl⟩
  rw [fetchesOf_fetchStep h hne, hget]
  simp [hlate, hlt]

theorem Owned.run (h : bf.Owned) (hne : bf.validators ≠ []) {req : PendingBatchRequest}
    (hget : bf.pendingRequests.get digest = some req) {n : Nat}
    (hn : req.retries + n ≤ bf.cfg.maxRetries) :
    ∃ passes, fetchesOf digest (Run.exec BatchFetcher.fetchStep bf [] passes).2 =
      List.iterate (firstOther bf.validators) (firstOther bf.validators req.validator) n := by
  refine exists_exec_choices (I := fun validator retries bf' => (bf'.validators = bf.validators ∧
    bf'.cfg = bf.cfg) ∧ bf'.Owned ∧ ∃ req, bf'.pendingRequests.get digest = some req ∧
      req.validator = validator ∧ req.retries = retries) fetchesOf_append ?_
    ⟨⟨rfl, rfl⟩, h, req, hget, rfl, rfl⟩ hn []
  rintro validator retries bf' ⟨⟨hvs, hcfg⟩, h, req, hget, rfl, rfl⟩ hlt
  rw [← hcfg] at hlt
  rw [← hvs, ← hcfg]
  obtain ⟨pass, req', hsent, hnext⟩ := h.pass (by rw [hvs]; exact hne) hget hlt
  exact ⟨pass, hsent, bf'.fetchStep_frame pass, h.cleanupTimedOutRequests pass.2 pass.1,
    req', hnext⟩

end

/-- The first sends of a request for a batch that is not answered are to different peers: from
any state with a request that was sent once, through any passes. -/
def FetchVisits (vs : SimpleValidatorSet) (me first : UInt16) (maxRetries : Nat) : Prop :=
  ∀ (bf : BatchFetcher) (passes : List (Int × IterOrder PendingBatchRequest)) (digest : Hash)
    (req : PendingBatchRequest), bf.validators = Looseberry.peerValidatorIndices vs me →
    bf.cfg.maxRetries = maxRetries → bf.Owned → bf.pendingRequests.get digest = some req →
    req.validator = first → req.retries = 0 →
    Visits (Looseberry.peerValidatorIndices vs me) (first ::
      fetchesOf digest (Run.exec fetchStep bf [] passes).2)

theorem fetchVisits_iff (vs : SimpleValidatorSet) (me first : UInt16) (maxRetries : Nat)
    (hne : Looseberry.peerValidatorIndices vs me ≠ []) :
    FetchVisits vs me first maxRetries ↔
      ∀ j ≤ maxRetries, Visits (Looseberry.peerValidatorIndices vs me)
        (List.iterate (firstOther (Looseberry.peerValidatorIndices vs me)) first (j + 1)) := by
  constructor
  · intro h j hj
    set bf := (((new { requestTimeout := 0, maxRetries, maxPendingHeaders := 0 }).updateValidators
      (Looseberry.peerValidatorIndices vs me)).requestBatch 0 first 0).1
    have hget : bf.pendingRequests.get 0 =
        some { digest := 0, requestAt := 0, retries := 0, validator := first } :=
      GoMap.get_set_self _ _ _
    have howned : bf.Owned := by
      intro d req hreq
      rcases GoMap.get_set_eq_some hreq with ⟨rfl, rfl⟩ | ⟨-, hold⟩
      · rfl
      · exact absurd hold GoMap.get_empty_ne
    have hmax : bf.cfg.maxRetries = maxRetries := rfl
    obtain ⟨passes, hsends⟩ := howned.run hne hget (n := j) (by rw [hmax]; simpa using hj)
    have hvisits := h bf passes 0 _ rfl rfl howned hget rfl rfl
    rw [hsends] at hvisits
    exact hvisits
  · intro h bf passes digest req hvalidators hmax howned hget hfirst hretries
    have hfollows : Follows digest first 0 bf := by
      refine ⟨howned, fun req' hreq' => ?_⟩
      rw [← Option.some.inj (hget.symm.trans hreq')]
      exact ⟨hfirst, hretries⟩
    obtain ⟨j, hj, hsends⟩ := hfollows.run (by rw [hvalidators]; exact hne) passes
    rw [hsends, hvalidators]
    exact h j (by omega)

end BatchFetcher

/-- Retries visit the peers one after the other exactly if there are no peers, or the request
went to a peer and the sends that count, at most one for each peer and one more than there are
retries, are two at most, or three from a peer that is not one of the first two. This is so of
sync requests and of requests for batches. -/
theorem retries_visit_peers_iff (vs : SimpleValidatorSet) (me first : UInt16)
    (maxRetries : Nat) :
    let peers := Looseberry.peerValidatorIndices vs me
    let sends := min peers.toFinset.card (maxRetries + 1)
    let few := peers.toFinset.card = 0 ∨
      first ∈ peers ∧ (sends ≤ 2 ∨ sends = 3 ∧ first ∉ firstTwo peers)
    (SyncManager.SyncVisits vs me first maxRetries ↔ few) ∧
      (BatchFetcher.FetchVisits vs me first maxRetries ↔ few) := by
  intro peers sends few
  constructor
  · rw [SyncManager.syncVisits_iff]
    exact visits_iterate_iff (fun h a => SyncManager.retryPeer_eq h a) first maxRetries
  · by_cases hne : peers = []
    · have hcard : peers.toFinset.card = 0 := by rw [hne]; rfl
      refine iff_of_true (fun bf passes digest req _ _ _ _ _ _ m hm => ?_) (.inl hcard)
      rw [show m = 0 from Nat.le_zero.mp (hcard ▸ hm)]
      simp
    · rw [BatchFetcher.fetchVisits_iff vs me first maxRetries hne]
      exact visits_iterate_iff (fun _ _ => rfl) first maxRetries

/-- A sync request to validator `1` of four, and three passes of validator `0`. -/
def unansweredSync : List UInt16 :=
  1 :: (Run.exec (SyncManager.followStep SyncManager.threeRetries 0)
    ((SyncManager.idleManager.requestSync 1 1 0 0 0).2, some 1) []
    [(10, .listed), (100, .listed), (1000, .listed)]).2

/-- The fetcher of validator `0` of four, with a request to validator `1`. -/
def askingFetcher : BatchFetcher :=
  (((BatchFetcher.new .default).updateValidators
    (Looseberry.peerValidatorIndices (idealValidators 4 0) 0)).requestBatch 7 1 0).1

def unansweredFetch : List UInt16 :=
  1 :: BatchFetcher.fetchesOf 7 (Run.exec BatchFetcher.fetchStep askingFetcher []
    [(20 * 10 ^ 9, .listed), (40 * 10 ^ 9, .listed), (60 * 10 ^ 9, .listed)]).2

/-- Three peers and three retries: either request goes to the first peer and to the second, and
back again. The third peer is not asked. -/
theorem retries_alternate :
    Looseberry.peerValidatorIndices (idealValidators 4 0) 0 = [1, 2, 3] ∧
      unansweredSync = [1, 2, 1, 2] ∧ unansweredFetch = [1, 2, 1, 2] ∧
      ¬ SyncManager.SyncVisits (idealValidators 4 0) 0 1 3 ∧
      ¬ BatchFetcher.FetchVisits (idealValidators 4 0) 0 1 3 := by
  have hpeers : Looseberry.peerValidatorIndices (idealValidators 4 0) 0 = [1, 2, 3] := by decide
  have hsync : unansweredSync = [1, 2, 1, 2] := by decide
  have hfetch : unansweredFetch = [1, 2, 1, 2] := by decide
  have hnot : ¬ Visits (Looseberry.peerValidatorIndices (idealValidators 4 0) 0) [1, 2, 1, 2] := by
    intro hvisits
    exact absurd (hvisits 3 (by decide)).1 (by decide)
  refine ⟨hpeers, hsync, hfetch, fun hvisits => hnot ?_, fun hvisits => hnot ?_⟩
  · rw [← hsync]
    exact hvisits _ SyncManager.threeRetries _ _ rfl rfl
      ((SyncManager.filed_new _ _).requestSync 1 1 0 0 0) (GoMap.get_set_self _ _ _) rfl
  · rw [← hfetch]
    refine hvisits askingFetcher _ 7 _ rfl rfl ?_ (GoMap.get_set_self _ _ _) rfl rfl
    intro d req hget
    rcases GoMap.get_set_eq_some hget with ⟨rfl, rfl⟩ | ⟨-, hold⟩
    · rfl
    · exact absurd hold GoMap.get_empty_ne

end DagMempool
