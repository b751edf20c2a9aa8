import DagMempool.Lib.FirstOther
import DagMempool.Primary.BatchFetcher

/-!
# A pass of the batch fetcher

What the cleanup makes of the requests under way, digest by digest. A request that was not
answered for too long is given up, or it gets a new time and the first other validator. The
retries look up once more what they were taken from, so the order of the pass makes no
difference to what is pending after it.
-/

namespace DagMempool

open FirstOther

namespace BatchFetcher

/-- Every pending request is filed under its digest. -/
def Owned (bf : BatchFetcher) : Prop :=
  ∀ d req, bf.pendingRequests.get d = some req → req.digest = d

/-- A request that went unanswered for too long. -/
def Late (bf : BatchFetcher) (now : Int) (req : PendingBatchRequest) : Bool :=
  decide (req.requestAt < now - bf.cfg.requestTimeout)

/-- What a pass makes of a request. -/
def afterPass (bf : BatchFetcher) (now : Int) (req : PendingBatchRequest) :
    Option PendingBatchRequest :=
  if bf.Late now req then
    if req.retries < bf.cfg.maxRetries then
      some { req with
        retries := req.retries + 1, requestAt := now
        validator := firstOther bf.validators req.validator }
    else none
  else some req

/-- The requests that a pass sends again, in its order. -/
def retriedRequests (bf : BatchFetcher) (order : IterOrder PendingBatchRequest) (now : Int) :
    List PendingBatchRequest :=
  ((order.arrange bf.pendingRequests.values).filter (bf.Late now)).filter fun req =>
    decide (req.retries < bf.cfg.maxRetries)

/-- The digests of the requests that a pass gives up. -/
def failedDigests (bf : BatchFetcher) (order : IterOrder PendingBatchRequest) (now : Int) :
    List Hash :=
  (((order.arrange bf.pendingRequests.values).filter (bf.Late now)).filter fun req =>
    !decide (req.retries < bf.cfg.maxRetries)).map (·.digest)

/-- A request that is sent again, before it gets another validator. -/
def renew (now : Int) (req : PendingBatchRequest) : PendingBatchRequest :=
  { req with retries := req.retries + 1, requestAt := now }

/-- The requests to send again have their new times, and those that are given up are gone. -/
def renewed (bf : BatchFetcher) (order : IterOrder PendingBatchRequest) (now : Int) :
    BatchFetcher :=
  { bf with
    pendingRequests := (((bf.retriedRequests order now).map (renew now)).foldl
      (fun m req => m.set req.digest req) bf.pendingRequests).delAll
        (bf.failedDigests order now) }

@[simp] theorem renewed_validators (bf : BatchFetcher) (order : IterOrder PendingBatchRequest)
    (now : Int) : (bf.renewed order now).validators = bf.validators :=
  rfl

/-- What each retry does to the pending requests. -/
def redirect (next : PendingBatchRequest → UInt16) (m : GoMap Hash PendingBatchRequest)
    (req : PendingBatchRequest) : GoMap Hash PendingBatchRequest :=
  match m.get req.digest with
  | none => m
  | some entry => m.set req.digest { entry with validator := next req }

variable {bf : BatchFetcher}
variable {now : Int} {req : PendingBatchRequest} {order : IterOrder PendingBatchRequest}

theorem digest_afterPass {req req' : PendingBatchRequest} (h : bf.afterPass now req = some req') :
    req'.digest = req.digest := by
  unfold afterPass at h
  split at h
  · split at h
    · rw [← Option.some.inj h]
    · cases h
  · rw [← Option.some.inj h]

theorem afterPass_eq_none :
    bf.afterPass now req = none ↔ bf.Late now req = true ∧ ¬ req.retries < bf.cfg.maxRetries := by
  unfold afterPass
  split
  · next hlate => simp [hlate]
  · next hlate => simp [hlate]

/-! ## Which requests are late -/

theorem mem_timedOut (h : bf.Owned) {p : PendingBatchRequest → Bool} :
    req ∈ ((order.arrange bf.pendingRequests.values).filter (bf.Late now)).filter p ↔
      bf.pendingRequests.get req.digest = some req ∧ bf.Late now req = true ∧ p req = true := by
  rw [List.mem_filter, List.mem_filter, order.mem_arrange, GoMap.mem_values, and_assoc]
  refine and_congr_left' ⟨?_, fun hget => ⟨_, hget⟩⟩
  rintro ⟨d, hget⟩
  rwa [h d req hget]

theorem mem_digests_timedOut (h : bf.Owned) {p : PendingBatchRequest → Bool} {d : Hash}
    (hget : bf.pendingRequests.get d = some req) :
    d ∈ (((order.arrange bf.pendingRequests.values).filter (bf.Late now)).filter p).map
        (·.digest) ↔ bf.Late now req = true ∧ p req = true := by
  rw [List.mem_map]
  constructor
  · rintro ⟨old, hold, rfl⟩
    obtain ⟨hget', hlate⟩ := (mem_timedOut h).mp hold
    obtain rfl := Option.some.inj (hget.symm.trans hget')
    exact hlate
  · intro hlate
    obtain rfl := h d req hget
    exact ⟨req, (mem_timedOut h).mpr ⟨hget, hlate⟩, rfl⟩

theorem mem_retriedRequests (h : bf.Owned) :
    req ∈ bf.retriedRequests order now ↔ bf.pendingRequests.get req.digest = some req ∧
      bf.Late now req = true ∧ req.retries < bf.cfg.maxRetries := by
  rw [retriedRequests, mem_timedOut h, decide_eq_true_eq]

theorem mem_failedDigests (h : bf.Owned) {d : Hash} (hget : bf.pendingRequests.get d = some req) :
    d ∈ bf.failedDigests order now ↔ bf.afterPass now req = none := by
  rw [failedDigests, mem_digests_timedOut h hget, afterPass_eq_none]
  simp

theorem mem_retriedDigests (h : bf.Owned) (order : IterOrder PendingBatchRequest) {d : Hash}
    (hget : bf.pendingRequests.get d = some req) :
    d ∈ ((bf.retriedRequests order now).map (renew now)).map (·.digest) ↔
      bf.Late now req = true ∧ req.retries < bf.cfg.maxRetries := by
  rw [List.map_map]
  exact (mem_digests_timedOut h hget).trans (by rw [decide_eq_true_eq])

theorem get_renewed (h : bf.Owned) (order : IterOrder PendingBatchRequest) (now : Int)
    (d : Hash) :
    (bf.renewed order now).pendingRequests.get d =
      if d ∈ bf.failedDigests order now then none
      else (bf.pendingRequests.get d).map fun req =>
        if bf.Late now req = true ∧ req.retries < bf.cfg.maxRetries then renew now req
        else req := by
  rw [renewed, GoMap.get_delAll]
  refine congrArg (ite _ none) ?_
  refine GoMap.get_foldl_set PendingBatchRequest.digest id (fun req hreq hd => ?_) fun hnot => ?_
  · obtain ⟨old, hold, rfl⟩ := List.mem_map.mp hreq
    obtain ⟨hget, hdue⟩ := (mem_retriedRequests h).mp hold
    obtain rfl : old.digest = d := hd
    rw [hget, Option.map_some, if_pos hdue]
    rfl
  · cases hget : bf.pendingRequests.get d with
    | none => rfl
    | some req =>
      have hout : ¬ (bf.Late now req = true ∧ req.retries < bf.cfg.maxRetries) := by
        rw [← mem_retriedDigests h order hget, List.mem_map]
        rintro ⟨req', hreq', hd⟩
        exact hnot req' hreq' hd
      rw [Option.map_some, if_neg hout]

/-! ## The retries -/

theorem get_redirect (next : PendingBatchRequest → UInt16) (m : GoMap Hash PendingBatchRequest)
    (req : PendingBatchRequest) (d : Hash) :
    (redirect next m req).get d =
      if d = req.digest then (m.get d).map fun entry => { entry with validator := next req }
      else m.get d := by
  unfold redirect
  split
  · next hnone =>
      split
      · next hd => rw [hd, hnone]; rfl
      · rfl
  · next entry hget =>
      rw [GoMap.get_set]
      split
      · next hd => rw [hd, hget]; rfl
      · rfl

/-- The requests for one digest all say the same, so it does not matter how many they are. -/
theorem get_foldl_redirect {next : PendingBatchRequest → UInt16}
    {reqs : List PendingBatchRequest} {m : GoMap Hash PendingBatchRequest} {d : Hash} {v : UInt16}
    (hsame : ∀ req ∈ reqs, req.digest = d → next req = v) :
    (reqs.foldl (redirect next) m).get d =
      if d ∈ reqs.map (·.digest) then (m.get d).map fun entry => { entry with validator := v }
      else m.get d := by
  induction reqs generalizing m with
  | nil => simp
  | cons req reqs ih =>
    rw [List.foldl_cons, ih fun r hr => hsame r (List.mem_cons_of_mem _ hr), get_redirect]
    by_cases hd : d = req.digest
    · have hmem : d ∈ (req :: reqs).map (·.digest) := by simp [hd]
      rw [if_pos hd, hsame req List.mem_cons_self hd.symm, if_pos hmem]
      split
      · cases m.get d with
        | none => rfl
        | some entry => rfl
      · rfl
    · rw [if_neg hd]
      simp [hd]

theorem retryAll_of_nil (hnil : bf.validators = []) (reqs : List PendingBatchRequest) :
    bf.retryAll reqs = (bf, []) := by
  induction reqs with
  | nil => rfl
  | cons req reqs ih =>
    have hfirst : bf.retryRequest req = (bf, []) := by
      rw [retryRequest, if_pos (by simp [hnil])]
    rw [retryAll, hfirst]
    rw [ih]
    rfl

theorem retryAll_redirects (hne : bf.validators ≠ []) (reqs : List PendingBatchRequest) :
    (bf.retryAll reqs).1 =
        { bf with
          pendingRequests := reqs.foldl
            (redirect fun req => firstOther bf.validators req.validator) bf.pendingRequests } ∧
      (bf.retryAll reqs).2 =
        reqs.map fun req => (firstOther bf.validators req.validator, req.digest) := by
  induction reqs generalizing bf with
  | nil => exact ⟨rfl, rfl⟩
  | cons req reqs ih =>
    have hfirst : bf.retryRequest req =
        ({ bf with
            pendingRequests := redirect (fun req => firstOther bf.validators req.validator)
              bf.pendingRequests req },
          [(firstOther bf.validators req.validator, req.digest)]) := by
      rw [retryRequest, if_neg (by simpa using hne)]
      rfl
    have hnext : (bf.retryRequest req).1.validators ≠ [] := by rw [hfirst]; exact hne
    obtain ⟨hmap, hsent⟩ := ih hnext
    rw [hfirst] at hmap hsent
    rw [retryAll, hfirst]
    exact ⟨hmap, congrArg (_ :: ·) hsent⟩

theorem retryAll_frame (bf : BatchFetcher) (reqs : List PendingBatchRequest) :
    ∃ pending, (bf.retryAll reqs).1 = { bf with pendingRequests := pending } := by
  by_cases hnil : bf.validators = []
  · exact ⟨bf.pendingRequests, by rw [retryAll_of_nil hnil]⟩
  · exact ⟨_, (retryAll_redirects hnil reqs).1⟩

/-! ## The pass -/

theorem cleanupTimedOutRequests_retries (bf : BatchFetcher)
    (order : IterOrder PendingBatchRequest) (now : Int) :
    bf.cleanupTimedOutRequests order now =
      let retried := (bf.renewed order now).retryAll
        ((bf.retriedRequests order now).map (renew now))
      (retried.1.cleanupFailedBatchHeaders (bf.failedDigests order now), retried.2) :=
  rfl

/-- The requests that are given up leave two maps, and the headers listed for them the third. -/
theorem cleanupTimedOutRequests_eq (bf : BatchFetcher) (order : IterOrder PendingBatchRequest)
    (now : Int) :
    ∃ reqs, (bf.cleanupTimedOutRequests order now).1 = { bf with
      pendingRequests := reqs
      batchToHeaders := bf.batchToHeaders.delAll (bf.failedDigests order now)
      pendingHeaders := bf.pendingHeaders.delAll ((bf.failedDigests order now).flatMap fun d =>
        (bf.batchToHeaders.get d).getD []) } := by
  obtain ⟨reqs, hretry⟩ := retryAll_frame (bf.renewed order now)
    ((bf.retriedRequests order now).map (renew now))
  rw [cleanupTimedOutRequests_retries]
  dsimp only
  rw [hretry]
  exact ⟨reqs, rfl⟩

theorem afterPass_eq (h : bf.Owned) (order : IterOrder PendingBatchRequest) {d : Hash}
    (hget : bf.pendingRequests.get d = some req) :
    bf.afterPass now req = if d ∈ bf.failedDigests order now then none else some
      (if bf.Late now req = true ∧ req.retries < bf.cfg.maxRetries then
        { renew now req with validator := firstOther bf.validators req.validator }
      else req) := by
  simp only [mem_failedDigests h hget, afterPass_eq_none]
  unfold afterPass
  by_cases hlate : bf.Late now req = true
  · by_cases hlt : req.retries < bf.cfg.maxRetries
    · simp [hlate, hlt, renew]
    · simp [hlate, hlt]
  · simp [hlate]

theorem get_cleanupTimedOutRequests (h : bf.Owned) (order : IterOrder PendingBatchRequest)
    (now : Int) (d : Hash) :
    (bf.cleanupTimedOutRequests order now).1.pendingRequests.get d =
      (bf.pendingRequests.get d).bind (bf.afterPass now) := by
  show ((bf.renewed order now).retryAll
    ((bf.retriedRequests order now).map (renew now))).1.pendingRequests.get d = _
  -- The validator asked next is that for the request that is pending for this digest.
  have hsame : ∀ req ∈ (bf.retriedRequests order now).map (renew now), req.digest = d →
      firstOther bf.validators req.validator = (bf.pendingRequests.get d).elim 0 fun old =>
        firstOther bf.validators old.validator := by
    rintro req hreq rfl
    obtain ⟨old, hold, rfl⟩ := List.mem_map.mp hreq
    rw [show (renew now old).digest = old.digest from rfl, ((mem_retriedRequests h).mp hold).1]
    rfl
  by_cases hnil : bf.validators = []
  · rw [retryAll_of_nil ((renewed_validators ..).trans hnil), get_renewed h]
    cases hget : bf.pendingRequests.get d with
    | none => simp
    | some req =>
      rw [Option.bind_some, afterPass_eq h order hget, hnil]
      rfl
  · rw [(retryAll_redirects (ne_of_eq_of_ne (renewed_validators ..) hnil) _).1]
    simp only [renewed_validators]
    rw [get_foldl_redirect hsame, get_renewed h]
    cases hget : bf.pendingRequests.get d with
    | none => simp
    | some req =>
      simp only [Option.bind_some, afterPass_eq h order hget, mem_retriedDigests h order hget]
      by_cases hfailed : d ∈ bf.failedDigests order now
      · simp [hfailed]
      · by_cases hdue : bf.Late now req = true ∧ req.retries < bf.cfg.maxRetries
        · simp [hfailed, hdue]
        · simp [hfailed, hdue]

theorem has_cleanupTimedOutRequests (h : bf.Owned) (order : IterOrder PendingBatchRequest)
    (now : Int) (d : Hash) :
    (bf.cleanupTimedOutRequests order now).1.pendingRequests.has d = true ↔
      bf.pendingRequests.has d = true ∧ d ∉ bf.failedDigests order now := by
  rw [GoMap.has, GoMap.has, get_cleanupTimedOutRequests h]
  cases hget : bf.pendingRequests.get d with
  | none => simp
  | some req =>
    rw [mem_failedDigests h hget, Option.bind_some, ← Option.ne_none_iff_isSome]
    simp

theorem Owned.cleanupTimedOutRequests (h : bf.Owned) (order : IterOrder PendingBatchRequest)
    (now : Int) : (bf.cleanupTimedOutRequests order now).1.Owned := by
  intro d req hget
  rw [get_cleanupTimedOutRequests h, Option.bind_eq_some_iff] at hget
  obtain ⟨old, hold, hafter⟩ := hget
  rw [digest_afterPass hafter]
  exact h d old hold

theorem sent_cleanupTimedOutRequests (hne : bf.validators ≠ [])
    (order : IterOrder PendingBatchRequest) (now : Int) :
    (bf.cleanupTimedOutRequests order now).2 = (bf.retriedRequests order now).map fun req =>
      (firstOther bf.validators req.validator, req.digest) := by
  rw [cleanupTimedOutRequests_retries]
  refine (retryAll_redirects (ne_of_eq_of_ne (renewed_validators ..) hne) _).2.trans ?_
  rw [List.map_map]
  rfl

end BatchFetcher

end DagMempool
