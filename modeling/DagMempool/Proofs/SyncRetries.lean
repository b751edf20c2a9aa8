import DagMempool.Lib.Refile
import DagMempool.Network.Link
import DagMempool.Types.Ideal

/-!
# Requests that are retried

A pass over the pending requests gives up what was retried too often, and sends what else is
due again, each request to another peer. There is one request for a peer: the map has the peer
as its key, so a request that goes to another peer is filed there, whatever was there before.
Nothing is lost exactly if every request finds its new place free when it is moved.
-/

namespace DagMempool

open Refile

instance : Inhabited PendingSyncRequest :=
  ⟨{ fromRound := 0, toRound := 0, sentAt := 0, retryCount := 0, lastRetryAt := 0
     nextRetryAt := 0, targetPeer := 0 }⟩

namespace SyncManager

/-! ## Requests and the peers they are filed under

Every call that leaves a request pending leaves it where it is, or files it under the peer it has
just handed it to. -/

/-- Every pending request is filed under the peer it was sent to. -/
def Filed (s : SyncManager) : Prop :=
  ∀ v req, s.pendingReqs.get v = some req → req.targetPeer = v

theorem filed_new (cfg : SyncConfig) (vs : SimpleValidatorSet) : (new cfg vs).Filed :=
  fun _ _ hget => absurd hget GoMap.get_empty_ne

variable {s : SyncManager} {order : IterOrder UInt16}

/-- A call has handed the request to the network, for the peer it is filed under: it was sent
if that peer could be reached. -/
structure Handed (env : SyncEnv) (sent : SentRequests) (v : UInt16) (req : PendingSyncRequest) :
    Prop where
  target : req.targetPeer = v
  sent : env.reachable v = true →
    (v, { fromRound := req.fromRound, toRound := req.toRound, requester := env.me }) ∈ sent

/-- A call that ends in `s'` leaves a request where it was, or hands it to the network. -/
def Files (env : SyncEnv) (sent : SentRequests) (s s' : SyncManager) : Prop :=
  ∀ v req, s'.pendingReqs.get v = some req →
    s.pendingReqs.get v = some req ∨ Handed env sent v req

variable {now : Int} {v : UInt16} {req : PendingSyncRequest} {policy : SyncPolicy}

section

variable {env : SyncEnv} {sent sent' : SentRequests} {s' s'' : SyncManager}

theorem Files.refl (env : SyncEnv) (sent : SentRequests) (s : SyncManager) :
    Files env sent s s := fun _ _ hget => .inl hget

theorem Files.trans (h : Files env sent s s') (h' : Files env sent' s' s'') :
    Files env (sent ++ sent') s s'' := by
  intro v req hget
  rcases h' v req hget with hold | hnew
  · exact (h v req hold).imp_right fun hnew =>
      ⟨hnew.target, fun hr => List.mem_append_left _ (hnew.sent hr)⟩
  · exact .inr ⟨hnew.target, fun hr => List.mem_append_right _ (hnew.sent hr)⟩

theorem Filed.of_files (h : s.Filed) (hfiles : Files env sent s s') : s'.Filed :=
  fun v req hget => (hfiles v req hget).elim (h v req) (·.target)

theorem requestSync_files (s : SyncManager) (env : SyncEnv) (validator : UInt16)
    (fromRound toRound : UInt64) (sent : SentRequests)
    (hsent : env.reachable validator = true →
      (validator, { fromRound, toRound, requester := env.me }) ∈ sent) :
    Files env sent s (s.requestSync validator fromRound toRound env.me env.now).2 := by
  intro v req hget
  rcases GoMap.get_set_eq_some hget with ⟨rfl, rfl⟩ | ⟨-, hold⟩
  · exact .inr ⟨rfl, hsent⟩
  · exact .inl hold

theorem Filed.requestSync (h : s.Filed) (validator : UInt16) (fromRound toRound : UInt64)
    (me : UInt16) (now : Int) : (s.requestSync validator fromRound toRound me now).2.Filed :=
  h.of_files (requestSync_files s { me, now, localRound := 0, reachable := fun _ => false }
    validator fromRound toRound [] (by simp))

end

/-! ## What is due

A pass looks at the times and the numbers of retries. It is said here, without the order of the
map, which requests go, which are sent again and which stay. -/

/-- A request that is due, and one that was retried as often as it may be. -/
def Due (now : Int) (req : PendingSyncRequest) : Bool := decide (req.nextRetryAt < now)

def GivenUp (policy : SyncPolicy) (req : PendingSyncRequest) : Bool :=
  decide (policy.maxRetries ≤ req.retryCount)

/-- The peers whose requests a pass sends again, in the order of the pass. -/
def retriedPeers (s : SyncManager) (policy : SyncPolicy) (now : Int)
    (order : IterOrder UInt16) : List UInt16 :=
  ((s.dueRequests now order).filter fun e => !GivenUp policy e.2).map (·.1)

def remaining (s : SyncManager) (policy : SyncPolicy) (now : Int) :
    GoMap UInt16 PendingSyncRequest :=
  s.pendingReqs.filter fun _ req => !(Due now req && GivenUp policy req)

def resent (s : SyncManager) (policy : SyncPolicy) (env : SyncEnv) (req : PendingSyncRequest) :
    PendingSyncRequest :=
  { retried s.cfg policy env.now req with
    targetPeer := retryPeer s.validatorSet.validators env.me req.targetPeer }

/-- What has to be pending after a pass: all that was, the requests that are due as they are
when sent again, but for those that were retried as often as they may be. -/
def keptRequests (s : SyncManager) (policy : SyncPolicy) (env : SyncEnv) :
    List PendingSyncRequest :=
  s.pendingReqs.values.filterMap fun req =>
    if Due env.now req then
      if GivenUp policy req then none else some (s.resent policy env req)
    else some req

theorem mem_dueRequests :
    (v, req) ∈ s.dueRequests now order ↔ s.pendingReqs.get v = some req ∧ Due now req = true := by
  rw [dueRequests, List.mem_filterMap]
  constructor
  · rintro ⟨v', -, hv'⟩
    rw [Option.map_eq_some_iff] at hv'
    obtain ⟨req', hfilter, heq⟩ := hv'
    obtain ⟨rfl, rfl⟩ := Prod.mk.inj heq
    rw [Option.filter_eq_some_iff] at hfilter
    exact hfilter
  · rintro ⟨hget, hdue⟩
    refine ⟨v, (order.mem_arrange).mpr (GoMap.mem_keys.mpr (GoMap.has_iff.mpr ⟨req, hget⟩)), ?_⟩
    rw [hget, Option.filter_some]
    simp only [Due] at hdue
    simp [hdue]

theorem nodup_dueRequests (s : SyncManager) (now : Int) (order : IterOrder UInt16) :
    ((s.dueRequests now order).map (·.1)).Nodup := by
  have hsub : ∀ l : List UInt16, ((l.filterMap fun validator =>
      ((s.pendingReqs.get validator).filter fun req => decide (req.nextRetryAt < now)).map
        fun req => (validator, req)).map (·.1)).Sublist l := by
    intro l
    induction l with
    | nil => exact List.Sublist.refl _
    | cons v l ih =>
      rw [List.filterMap_cons]
      cases ((s.pendingReqs.get v).filter fun req => decide (req.nextRetryAt < now)) with
      | none => exact ih.cons v
      | some req => exact ih.cons_cons v
  exact ((order.perm _).nodup_iff.mpr (GoMap.nodup_keys _)).sublist (hsub _)

theorem nodup_retriedPeers (s : SyncManager) (policy : SyncPolicy) (now : Int)
    (order : IterOrder UInt16) : (s.retriedPeers policy now order).Nodup :=
  (s.nodup_dueRequests now order).sublist (List.filter_sublist.map _)

theorem mem_retriedPeers :
    v ∈ s.retriedPeers policy now order ↔
      ∃ req, s.pendingReqs.get v = some req ∧ Due now req = true ∧ GivenUp policy req = false := by
  rw [retriedPeers, List.mem_map]
  constructor
  · rintro ⟨⟨v', req⟩, hmem, rfl⟩
    rw [List.mem_filter, mem_dueRequests] at hmem
    exact ⟨req, hmem.1.1, hmem.1.2, by simpa using hmem.2⟩
  · rintro ⟨req, hget, hdue, hkeep⟩
    refine ⟨(v, req), List.mem_filter.mpr ⟨mem_dueRequests.mpr ⟨hget, hdue⟩, ?_⟩, rfl⟩
    simp [hkeep]

theorem retried_iff (hget : s.pendingReqs.get v = some req) :
    v ∈ s.retriedPeers policy now order ↔ Due now req = true ∧ GivenUp policy req = false := by
  rw [mem_retriedPeers]
  constructor
  · rintro ⟨req', hget', h⟩
    rwa [Option.some.inj (hget.symm.trans hget')]
  · exact fun h => ⟨req, hget, h⟩

/-! ## A pass as moves in a map

The times of all requests are set first. After that each retry moves one request to the place of
another peer, which is what `Refile` is about. -/

/-- The requests when the retries start: without those given up, and with the new times. -/
def renewed (s : SyncManager) (policy : SyncPolicy) (now : Int) (order : IterOrder UInt16) :
    GoMap UInt16 PendingSyncRequest :=
  let due := s.dueRequests now order
  (((due.filter fun e => !GivenUp policy e.2).map fun e =>
      (e.1, retried s.cfg policy now e.2)).foldl (fun reqs e => reqs.set e.1 e.2)
    (s.pendingReqs.delAll ((due.filter fun e => GivenUp policy e.2).map (·.1))))

theorem get_remaining (s : SyncManager) (policy : SyncPolicy) (now : Int) (v : UInt16) :
    (s.remaining policy now).get v =
      (s.pendingReqs.get v).filter fun req => !(Due now req && GivenUp policy req) := by
  rw [remaining, GoMap.get_filter]

theorem get_renewed (s : SyncManager) (policy : SyncPolicy) (now : Int)
    (order : IterOrder UInt16) (v : UInt16) :
    (s.renewed policy now order).get v = ((s.remaining policy now).get v).map fun req =>
      if Due now req then retried s.cfg policy now req else req := by
  have hdue : ∀ {p : UInt16 × PendingSyncRequest → Bool} {v' req},
      (v', req) ∈ (s.dueRequests now order).filter p ↔
        (s.pendingReqs.get v' = some req ∧ Due now req = true) ∧ p (v', req) = true := by
    intro p v' req
    rw [List.mem_filter, mem_dueRequests]
  rw [get_remaining]
  refine GoMap.get_foldl_set Prod.fst Prod.snd (fun e he hv => ?_) fun hnot => ?_
  · obtain ⟨⟨v', req⟩, hmem, rfl⟩ := List.mem_map.mp he
    obtain ⟨⟨hget, hd⟩, hkeep⟩ := hdue.mp hmem
    obtain rfl : v' = v := hv
    have hkeep : GivenUp policy req = false := by simpa using hkeep
    simp [hget, hd, hkeep]
  · rw [GoMap.get_delAll]
    cases hget : s.pendingReqs.get v with
    | none => simp
    | some req =>
      cases hd : Due now req with
      | false =>
        have hout : v ∉ ((s.dueRequests now order).filter fun e => GivenUp policy e.2).map
            (·.1) := by
          intro hmem
          obtain ⟨⟨v', req'⟩, hin, rfl⟩ := List.mem_map.mp hmem
          obtain ⟨⟨hget', hd'⟩, -⟩ := hdue.mp hin
          obtain rfl := Option.some.inj (hget.symm.trans hget')
          rw [hd] at hd'
          cases hd'
        rw [if_neg hout]
        simp [hd]
      | true =>
        cases hkeep : GivenUp policy req with
        | false =>
          refine absurd rfl (hnot (v, retried s.cfg policy now req) ?_)
          exact List.mem_map.mpr ⟨(v, req), hdue.mpr ⟨⟨hget, hd⟩, by simp [hkeep]⟩, rfl⟩
        | true =>
          rw [if_pos (List.mem_map.mpr ⟨(v, req), hdue.mpr ⟨⟨hget, hd⟩, hkeep⟩, rfl⟩)]
          simp [hd, hkeep]

def nextPeer (s : SyncManager) (env : SyncEnv) (v : UInt16) : UInt16 :=
  retryPeer s.validatorSet.validators env.me v

def resentFrom (s : SyncManager) (policy : SyncPolicy) (env : SyncEnv) (v : UInt16) :
    PendingSyncRequest :=
  s.resent policy env ((s.pendingReqs.get v).getD default)

theorem foldl_retrySyncRequest {validators : List Validator} {env : SyncEnv}
    {u : UInt16 → PendingSyncRequest} {reqs : List PendingSyncRequest}
    (hu : ∀ req ∈ reqs, { req with targetPeer := retryPeer validators env.me req.targetPeer } =
      u req.targetPeer) (st : Retries) :
    (reqs.foldl (retrySyncRequest validators env) st).pendingReqs =
      (moveAll (retryPeer validators env.me) u { map := st.pendingReqs, moved := st.moved }
        (reqs.map (·.targetPeer))).map := by
  induction reqs generalizing st with
  | nil => rfl
  | cons req reqs ih =>
    rw [List.foldl_cons, ih fun r hr => hu r (List.mem_cons_of_mem _ hr), List.map_cons]
    refine congrArg (fun st => (moveAll _ u st _).map) ?_
    unfold retrySyncRequest move
    dsimp only
    rw [hu req List.mem_cons_self]
    split
    · rfl
    · rfl

theorem foldl_retrySyncRequest_sent {validators : List Validator} {env : SyncEnv}
    (reqs : List PendingSyncRequest) (st : Retries) :
    (reqs.foldl (retrySyncRequest validators env) st).sent = st.sent ++
      (reqs.map fun req => (retryPeer validators env.me req.targetPeer,
        { fromRound := req.fromRound, toRound := req.toRound, requester := env.me })).filter
          fun m => env.reachable m.1 := by
  induction reqs generalizing st with
  | nil => simp
  | cons req reqs ih =>
    rw [List.foldl_cons, ih, List.map_cons, List.filter_cons]
    unfold retrySyncRequest
    dsimp only
    cases env.reachable (retryPeer validators env.me req.targetPeer) with
    | false => split <;> simp
    | true => split <;> simp

/-- What a pass sends: one message for every request it sends again. -/
theorem sent_cleanupTimedOutRequests (h : s.Filed) (policy : SyncPolicy) (env : SyncEnv)
    (order : IterOrder UInt16) :
    (s.cleanupTimedOutRequests policy env order).2 =
      (((s.dueRequests env.now order).filter fun e => !GivenUp policy e.2).map fun e =>
        (retryPeer s.validatorSet.validators env.me e.1,
          { fromRound := e.2.fromRound, toRound := e.2.toRound, requester := env.me })).filter
            fun m => env.reachable m.1 := by
  show (List.foldl (retrySyncRequest s.validatorSet.validators env)
    { pendingReqs := s.renewed policy env.now order, moved := [], sent := [] } _).sent = _
  rw [foldl_retrySyncRequest_sent, List.nil_append, List.map_map, List.map_map]
  refine congrArg (List.filter _) (List.map_congr_left fun e he => ?_)
  have hget := (mem_dueRequests.mp (List.mem_filter.mp he).1).1
  show (retryPeer _ env.me e.2.targetPeer, _) = (retryPeer _ env.me e.1, _)
  rw [h e.1 e.2 hget]
  rfl

theorem cleanupTimedOutRequests_moves (h : s.Filed) (policy : SyncPolicy) (env : SyncEnv)
    (order : IterOrder UInt16) :
    (s.cleanupTimedOutRequests policy env order).1.pendingReqs =
      (moveAll (s.nextPeer env) (s.resentFrom policy env)
        { map := s.renewed policy env.now order, moved := [] }
        (s.retriedPeers policy env.now order)).map := by
  have hdue : ∀ e ∈ (s.dueRequests env.now order).filter fun e => !GivenUp policy e.2,
      s.pendingReqs.get e.1 = some e.2 := by
    rintro ⟨v, req⟩ hmem
    exact (mem_dueRequests.mp (List.mem_filter.mp hmem).1).1
  show (List.foldl (retrySyncRequest s.validatorSet.validators env)
    { pendingReqs := s.renewed policy env.now order, moved := [], sent := [] } _).pendingReqs = _
  rw [foldl_retrySyncRequest (u := s.resentFrom policy env), retriedPeers, List.map_map,
    List.map_map]
  · refine congrArg (fun ks => (moveAll _ _ _ ks).map) (List.map_congr_left fun e he => ?_)
    exact h e.1 e.2 (hdue e he)
  · intro req hreq
    obtain ⟨e', he', rfl⟩ := List.mem_map.mp hreq
    obtain ⟨e, he, rfl⟩ := List.mem_map.mp he'
    have hget := hdue e he
    have htarget : e.2.targetPeer = e.1 := h e.1 e.2 hget
    show _ = s.resentFrom policy env e.2.targetPeer
    rw [resentFrom, htarget, hget]
    rfl

theorem dueRequests_perm (s : SyncManager) (now : Int) (order : IterOrder UInt16) :
    ((s.dueRequests now order).map (·.2)).Perm (s.pendingReqs.values.filter (Due now)) := by
  have hlisted : s.pendingReqs.keys.filterMap (fun validator =>
      ((s.pendingReqs.get validator).filter fun req => decide (req.nextRetryAt < now)).map
        fun req => (validator, req)) =
      s.pendingReqs.entries.filterMap fun e => if Due now e.2 then some (e.1, e.2) else none := by
    rw [GoMap.keys, List.filterMap_map]
    refine List.filterMap_congr fun e he => ?_
    have hget : s.pendingReqs.get e.1 = some e.2 := GoMap.get_eq_some.mpr he
    show ((s.pendingReqs.get e.1).filter _).map _ = _
    rw [hget, Option.filter_some, Due]
    split <;> rfl
  have hvalues : (s.pendingReqs.entries.filterMap fun e =>
      if Due now e.2 then some (e.1, e.2) else none).map (·.2) =
      s.pendingReqs.values.filter (Due now) := by
    rw [GoMap.values, List.filter_map, ← List.filterMap_eq_filter, List.map_filterMap,
      List.map_filterMap]
    refine List.filterMap_congr fun e he => ?_
    cases hd : Due now e.2 <;> simp [hd, Option.guard]
  rw [← hvalues, ← hlisted]
  exact ((order.perm _).filterMap _).map _

theorem filterMap_perm {V : Type} (change drop : V → Bool) (g : V → V) (l : List V) :
    (l.filterMap fun a => if change a then if drop a then none else some (g a) else some a).Perm
      (((l.filter change).filter fun a => !drop a).map g ++ l.filter fun a => !change a) := by
  induction l with
  | nil => exact .refl _
  | cons a l ih =>
    cases hc : change a with
    | false =>
      simp only [List.filterMap_cons, List.filter_cons, hc, Bool.not_false, Bool.false_eq_true,
        if_false, if_true]
      exact (ih.cons a).trans List.perm_middle.symm
    | true =>
      cases hd : drop a with
      | true => simpa [hc, hd] using ih
      | false => simpa [hc, hd] using ih

theorem keptRequests_perm (s : SyncManager) (policy : SyncPolicy) (env : SyncEnv)
    (order : IterOrder UInt16) :
    (s.keptRequests policy env).Perm
      ((s.retriedPeers policy env.now order).map (s.resentFrom policy env) ++
        ((s.renewed policy env.now order).delAll
          (s.retriedPeers policy env.now order)).values) := by
  refine (filterMap_perm (Due env.now) (GivenUp policy) _ _).trans (.append ?_ ?_)
  · have hresent : (s.retriedPeers policy env.now order).map (s.resentFrom policy env) =
        (((s.dueRequests env.now order).map (·.2)).filter fun req => !GivenUp policy req).map
          (s.resent policy env) := by
      rw [retriedPeers, List.filter_map, List.map_map, List.map_map]
      refine List.map_congr_left fun e he => ?_
      show s.resentFrom policy env e.1 = s.resent policy env e.2
      rw [resentFrom, (mem_dueRequests.mp (List.mem_filter.mp he).1).1]
      rfl
    rw [hresent]
    exact (((s.dueRequests_perm env.now order).filter _).map _).symm
  · have hvalues : s.pendingReqs.values.filter (fun req => !Due env.now req) =
        (s.pendingReqs.filter fun _ req => !Due env.now req).values := by
      rw [GoMap.values, List.filter_map]
      rfl
    rw [hvalues]
    refine GoMap.values_perm_of_get fun v => ?_
    rw [GoMap.get_filter, GoMap.get_delAll, get_renewed, get_remaining]
    cases hget : s.pendingReqs.get v with
    | none => simp
    | some req =>
      simp only [retried_iff hget, Option.filter_some]
      cases hd : Due env.now req with
      | false => simp [hd]
      | true =>
        cases hk : GivenUp policy req with
        | false => simp
        | true => simp

theorem has_renewed (s : SyncManager) (policy : SyncPolicy) (now : Int)
    (order : IterOrder UInt16) (v : UInt16) :
    (s.renewed policy now order).has v = (s.remaining policy now).has v := by
  rw [GoMap.has, GoMap.has, get_renewed, Option.isSome_map]

theorem has_of_retried (h : v ∈ s.retriedPeers policy now order) :
    (s.renewed policy now order).has v = true := by
  obtain ⟨req, hget, hd, hk⟩ := mem_retriedPeers.mp h
  rw [has_renewed, GoMap.has, get_remaining, hget]
  simp [hd, hk]

/-- What is pending after a pass was pending before, and not sent again, or is the next of a
request that was. -/
theorem get_cleanupTimedOutRequests (h : s.Filed) {env : SyncEnv}
    (hget : (s.cleanupTimedOutRequests policy env order).1.pendingReqs.get v = some req) :
    (v ∉ s.retriedPeers policy env.now order ∧ s.pendingReqs.get v = some req) ∨
      ∃ e ∈ (s.dueRequests env.now order).filter fun e => !GivenUp policy e.2,
        v = retryPeer s.validatorSet.validators env.me e.1 ∧ req = s.resent policy env e.2 := by
  rw [cleanupTimedOutRequests_moves h] at hget
  rcases (placed_moveAll _ _).entry v req hget with ⟨hnot, hold⟩ | ⟨v', hv', rfl, rfl⟩
  · refine .inl ⟨hnot, ?_⟩
    rw [get_renewed, Option.map_eq_some_iff] at hold
    obtain ⟨req', hrem, rfl⟩ := hold
    rw [get_remaining, Option.filter_eq_some_iff] at hrem
    obtain ⟨hget, hkeep⟩ := hrem
    split
    · next hdue =>
        refine absurd (mem_retriedPeers.mpr ⟨req', hget, hdue, ?_⟩) hnot
        rw [hdue] at hkeep
        simpa using hkeep
    · exact hget
  · obtain ⟨e, he, rfl⟩ := List.mem_map.mp hv'
    refine .inr ⟨e, he, rfl, ?_⟩
    rw [resentFrom, (mem_dueRequests.mp (List.mem_filter.mp he).1).1]
    rfl

theorem cleanupTimedOutRequests_files (h : s.Filed) (policy : SyncPolicy) (env : SyncEnv)
    (order : IterOrder UInt16) :
    Files env (s.cleanupTimedOutRequests policy env order).2 s
      (s.cleanupTimedOutRequests policy env order).1 := by
  intro v req hget
  rcases get_cleanupTimedOutRequests h hget with ⟨-, hold⟩ | ⟨e, he, rfl, rfl⟩
  · exact .inl hold
  · refine .inr ⟨?_, fun hr => ?_⟩
    · show retryPeer _ env.me e.2.targetPeer = _
      rw [h e.1 e.2 (mem_dueRequests.mp (List.mem_filter.mp he).1).1]
    · rw [sent_cleanupTimedOutRequests h, List.mem_filter]
      exact ⟨List.mem_map.mpr ⟨e, he, rfl⟩, hr⟩

/-- A pass loses no request exactly if every request that is sent again goes to its own peer, to
one with no request, or to one whose request was moved away before in the same pass, and no two
of them to the same one. A request then only goes away because it was retried as often as it
may be. -/
theorem sync_retries_keep_requests (s : SyncManager) (hfiled : s.Filed) (policy : SyncPolicy)
    (env : SyncEnv) (order : IterOrder UInt16) :
    (s.cleanupTimedOutRequests policy env order).1.pendingReqs.values.Perm
        (s.keptRequests policy env) ↔
      Vacant (retryPeer s.validatorSet.validators env.me) (s.remaining policy env.now)
        (s.retriedPeers policy env.now order) := by
  have hvacant : Vacant (retryPeer s.validatorSet.validators env.me)
      (s.remaining policy env.now) (s.retriedPeers policy env.now order) ↔
      Vacant (s.nextPeer env) (s.renewed policy env.now order)
        (s.retriedPeers policy env.now order) := by
    unfold Vacant
    simp only [has_renewed]
    rfl
  rw [hvacant, cleanupTimedOutRequests_moves hfiled,
    ← values_moveAll (u := s.resentFrom policy env) (s.nodup_retriedPeers policy env.now order)
      fun v hv => has_of_retried hv]
  have hkept := s.keptRequests_perm policy env order
  exact ⟨fun h => h.trans hkept, fun h => h.trans hkept.symm⟩

def idleManager : SyncManager :=
  new { syncBatchSize := 10, initialBackoff := 1 } (idealValidators 4 0)

def threeRetries : SyncPolicy := { syncThreshold := 1, maxRetries := 3, maxBackoff := 30 }

/-- The first validator, with every peer within reach. -/
def atTime (now : Int) : SyncEnv := { me := 0, now, localRound := 0, reachable := fun _ => true }

/-- One request, which moves from validator `2` to validator `1`. -/
theorem sync_retries_keep_requests_lone :
    ((idleManager.requestSync 2 1 0 0 0).2.retriedPeers threeRetries 10 .listed = [2]) ∧
      ((idleManager.requestSync 2 1 0 0 0).2.cleanupTimedOutRequests threeRetries (atTime 10)
        .listed).1.pendingReqs.values.Perm
      ((idleManager.requestSync 2 1 0 0 0).2.keptRequests threeRetries (atTime 10)) := by
  have hretried : (idleManager.requestSync 2 1 0 0 0).2.retriedPeers threeRetries 10 .listed =
      [2] := by decide
  refine ⟨hretried, (sync_retries_keep_requests _ ((filed_new _ _).requestSync 2 1 0 0 0)
    threeRetries (atTime 10) .listed).mpr ?_⟩
  show Vacant _ _ ((idleManager.requestSync 2 1 0 0 0).2.retriedPeers threeRetries 10 .listed)
  rw [hretried]
  exact vacant_singleton.mpr (.inr (by decide))

/-- Requests to the validators `2` and `3`, neither of them ever retried. -/
def twoPending : SyncManager :=
  ((idleManager.requestSync 2 1 4 0 0).2.requestSync 3 5 8 0 0).2

/-- Both are due, both move to validator `1`, and the second takes the place of the first. -/
theorem sync_retry_loses_request :
    twoPending.Filed ∧ (twoPending.keptRequests threeRetries (atTime 10)).length = 2 ∧
      (twoPending.cleanupTimedOutRequests threeRetries (atTime 10) .listed).1.pendingReqs.len = 1 ∧
      ¬ (twoPending.cleanupTimedOutRequests threeRetries (atTime 10)
        .listed).1.pendingReqs.values.Perm (twoPending.keptRequests threeRetries (atTime 10)) := by
  refine ⟨((filed_new _ _).requestSync 2 1 4 0 0).requestSync 3 5 8 0 0, by decide, by decide,
    fun hperm => absurd hperm.length_eq (by decide)⟩

/-! ## What an answer settles

A log of the calls says when a request was handed over, and for whom. What is filed under a peer
is the last one handed over for it, so the answer of this peer takes away no other. -/

section

variable [Crypto] {BS : Type} [BatchStore BS]

/-- One of the calls handed the request to the network for `v`, and it has been what is filed
under `v` after that call and after every one since. -/
def LastSentTo (calls : List SyncCalled) (v : UInt16) (req : PendingSyncRequest) : Prop :=
  ∃ before c since, calls = before ++ c :: since ∧ Handed c.env c.sent v req ∧
    ∀ d ∈ c :: since, d.after.pendingReqs.get v = some req

/-- What is pending was sent last to the peer it is filed under. -/
def Addressed (s : SyncManager) (calls : List SyncCalled) : Prop :=
  ∀ v req, s.pendingReqs.get v = some req → LastSentTo calls v req

omit [Crypto] in
theorem Addressed.filed {calls : List SyncCalled} (h : s.Addressed calls) : s.Filed := by
  intro v req hget
  obtain ⟨_, _, _, -, hhanded, -⟩ := h v req hget
  exact hhanded.target

end

end SyncManager

end DagMempool
