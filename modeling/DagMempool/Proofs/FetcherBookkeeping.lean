import DagMempool.Primary.FetcherPass

/-!
# The bookkeeping of the batch fetcher

The fetcher has three maps that refer to each other: the headers that wait, each with the batches
it misses; the headers to be looked at when a batch arrives; and the requests that are under way.
None of its calls leaves a header that waits for nothing, or one that the arrival of a batch it
misses would not find. So a header is handed back when the last batch it misses arrives, and not
a second time unless it was registered again.
-/

namespace DagMempool

namespace BatchFetcher

variable {bf : BatchFetcher}

/-- The three maps agree. -/
structure Bookkept (bf : BatchFetcher) : Prop where
  keyed : ∀ {k entry}, bf.pendingHeaders.get k = some entry → entry.header.digest = k
  waits : ∀ {k entry}, bf.pendingHeaders.get k = some entry →
    ∃ d, entry.missingBatch.has d = true
  listed : ∀ {k entry d}, bf.pendingHeaders.get k = some entry →
    entry.missingBatch.has d = true → k ∈ (bf.batchToHeaders.get d).getD []
  requested : ∀ d, bf.batchToHeaders.has d = true ↔ bf.pendingRequests.has d = true
  own : ∀ {d req}, bf.pendingRequests.get d = some req → req.digest = d
  bounded : bf.pendingHeaders.len ≤ bf.cfg.maxPendingHeaders

theorem bookkept_new (cfg : BatchFetcherConfig) : (new cfg).Bookkept where
  keyed h := absurd h (by simp [new])
  waits h := absurd h (by simp [new])
  listed h := absurd h (by simp [new])
  requested d := by simp [new, GoMap.has]
  own h := absurd h (by simp [new])
  bounded := Nat.zero_le _

variable {d : Hash} {entry : PendingHeaderEntry}

theorem Bookkept.has_request (h : bf.Bookkept) {k d : Hash}
    (hentry : bf.pendingHeaders.get k = some entry) (hd : entry.missingBatch.has d = true) :
    bf.pendingRequests.has d = true := by
  have hlisted := h.listed hentry hd
  rw [← h.requested]
  cases hget : bf.batchToHeaders.get d with
  | none =>
    rw [hget] at hlisted
    cases hlisted
  | some ks => exact GoMap.has_iff.mpr ⟨ks, hget⟩

/-! ## Registering a header

Of a header that is registered the fetcher keeps the batches it misses, puts the header on the
list of each, and requests those it has not requested. -/

theorem has_missing (missing : List Hash) (m : GoMap Hash Unit) (d : Hash) :
    (missing.foldl (fun m d => m.set d ()) m).has d = true ↔ d ∈ missing ∨ m.has d = true := by
  induction missing generalizing m with
  | nil => simp
  | cons first missing ih =>
    rw [List.foldl_cons, ih, GoMap.has_set, List.mem_cons]
    tauto

theorem has_listed (missing : List Hash) (k : Hash) (m : GoMap Hash (List Hash)) (d : Hash) :
    (missing.foldl (fun m d => m.set d ((m.get d).getD [] ++ [k])) m).has d = true ↔
      d ∈ missing ∨ m.has d = true := by
  induction missing generalizing m with
  | nil => simp
  | cons first missing ih =>
    rw [List.foldl_cons, ih, GoMap.has_set, List.mem_cons]
    tauto

theorem mem_listed (missing : List Hash) (k : Hash) (m : GoMap Hash (List Hash)) (d k' : Hash) :
    k' ∈ ((missing.foldl (fun m d => m.set d ((m.get d).getD [] ++ [k])) m).get d).getD [] ↔
      k' ∈ (m.get d).getD [] ∨ k' = k ∧ d ∈ missing := by
  induction missing generalizing m with
  | nil => simp
  | cons first missing ih =>
    rw [List.foldl_cons, ih, GoMap.get_set, List.mem_cons]
    by_cases hd : d = first
    · subst hd
      rw [if_pos rfl, Option.getD_some, List.mem_append, List.mem_singleton]
      tauto
    · rw [if_neg hd]
      tauto

theorem requestBatch_eq (bf : BatchFetcher) (d : Hash) (validator : UInt16) (now : Int) :
    ∃ reqs, (bf.requestBatch d validator now).1 = { bf with pendingRequests := reqs } ∧
      (∀ d', reqs.has d' = true ↔ d' = d ∨ bf.pendingRequests.has d' = true) ∧
      ∀ {d' req}, reqs.get d' = some req →
        req.digest = d' ∨ bf.pendingRequests.get d' = some req := by
  unfold requestBatch
  split
  · next hhas =>
      refine ⟨bf.pendingRequests, rfl, fun d' => ⟨.inr, ?_⟩, .inr⟩
      rintro (rfl | hold)
      · exact hhas
      · exact hold
  · refine ⟨_, rfl, fun d' => GoMap.has_set, fun {d' req} hreq => ?_⟩
    rcases GoMap.get_set_eq_some hreq with ⟨rfl, rfl⟩ | ⟨-, hold⟩
    · exact .inl rfl
    · exact .inr hold

theorem requestAll_eq (bf : BatchFetcher) (validator : UInt16) (now : Int) (ds : List Hash) :
    ∃ reqs, (bf.requestAll validator now ds).1 = { bf with pendingRequests := reqs } ∧
      (∀ d, reqs.has d = true ↔ d ∈ ds ∨ bf.pendingRequests.has d = true) ∧
      ∀ {d req}, reqs.get d = some req → req.digest = d ∨ bf.pendingRequests.get d = some req := by
  induction ds generalizing bf with
  | nil => exact ⟨bf.pendingRequests, rfl, by simp, .inr⟩
  | cons first ds ih =>
    obtain ⟨reqs, hfirst, hhas, hown⟩ := bf.requestBatch_eq first validator now
    obtain ⟨reqs', hrest, hhas', hown'⟩ := ih (bf.requestBatch first validator now).1
    rw [hfirst] at hhas' hown'
    refine ⟨reqs', ?_, fun d => ?_, fun {d req} hreq => ?_⟩
    · show ((bf.requestBatch first validator now).1.requestAll validator now ds).1 = _
      rw [hrest, hfirst]
    · rw [hhas', hhas, List.mem_cons]
      tauto
    · rcases hown' hreq with hdigest | hold
      · exact .inl hdigest
      · exact hown hold

section

variable {BS : Type} [BatchStore BS]

def registers (bf : BatchFetcher) (batchStore : BS) (header : Header) : Bool :=
  !(missingBatches batchStore header).isEmpty &&
    decide (bf.pendingHeaders.len < bf.cfg.maxPendingHeaders)

variable {batchStore : BS} {header : Header}

theorem requestBatchesForHeader_of_not_registers (h : bf.registers batchStore header = false)
    (now : Int) : (bf.requestBatchesForHeader batchStore header now).2.1 = bf := by
  unfold requestBatchesForHeader
  unfold registers at h
  dsimp only
  split
  · rfl
  · next hmissing =>
      split
      · rfl
      · next hfull =>
          rw [Bool.and_eq_false_iff, Bool.not_eq_false', decide_eq_false_iff_not] at h
          exact absurd (Nat.lt_of_not_le hfull) (h.resolve_left hmissing)

/-- The header with what it misses. -/
def waitingEntry (batchStore : BS) (header : Header) (now : Int) : PendingHeaderEntry :=
  { header, missingBatch := (missingBatches batchStore header).foldl (fun m d => m.set d ()) ∅
    createdAt := now }

theorem has_waitingEntry {now : Int} {d : Hash} :
    (waitingEntry batchStore header now).missingBatch.has d = true ↔
      d ∈ missingBatches batchStore header := by
  unfold waitingEntry
  rw [has_missing]
  simp [GoMap.has]

theorem requestBatchesForHeader_of_registers (h : bf.registers batchStore header = true)
    (now : Int) :
    let missing := missingBatches batchStore header
    ∃ reqs, (bf.requestBatchesForHeader batchStore header now).2.1 = { bf with
        pendingHeaders :=
          bf.pendingHeaders.set header.digest (waitingEntry batchStore header now)
        batchToHeaders := missing.foldl (fun m d =>
          m.set d ((m.get d).getD [] ++ [header.digest])) bf.batchToHeaders
        pendingRequests := reqs } ∧
      (∀ d, reqs.has d = true ↔ d ∈ missing ∨ bf.pendingRequests.has d = true) ∧
      ∀ {d req}, reqs.get d = some req → req.digest = d ∨ bf.pendingRequests.get d = some req := by
  unfold registers at h
  rw [Bool.and_eq_true, Bool.not_eq_true', decide_eq_true_eq] at h
  unfold requestBatchesForHeader
  rw [if_neg (by simp [h.1]), if_neg (Nat.not_le.mpr h.2)]
  exact requestAll_eq _ header.author now _

theorem Bookkept.requestBatchesForHeader (h : bf.Bookkept) (batchStore : BS) (header : Header)
    (now : Int) : (bf.requestBatchesForHeader batchStore header now).2.1.Bookkept := by
  cases hreg : bf.registers batchStore header with
  | false =>
    rw [requestBatchesForHeader_of_not_registers hreg]
    exact h
  | true =>
    obtain ⟨reqs, hrequest, hhas, hown⟩ := requestBatchesForHeader_of_registers hreg now
    unfold registers at hreg
    rw [Bool.and_eq_true, Bool.not_eq_true', decide_eq_true_eq] at hreg
    rw [hrequest]
    refine ⟨fun {k entry} hentry => ?_, fun {k entry} hentry => ?_,
      fun {k entry d} hentry hd => ?_, fun d => ?_, fun {d req} hreq => ?_, ?_⟩
    · rcases GoMap.get_set_eq_some hentry with ⟨rfl, rfl⟩ | ⟨-, hold⟩
      · rfl
      · exact h.keyed hold
    · rcases GoMap.get_set_eq_some hentry with ⟨rfl, rfl⟩ | ⟨-, hold⟩
      · obtain ⟨d, hd⟩ := List.exists_mem_of_ne_nil _ (List.isEmpty_eq_false_iff.mp hreg.1)
        exact ⟨d, has_waitingEntry.mpr hd⟩
      · exact h.waits hold
    · refine (mem_listed _ _ _ _ _).mpr ?_
      rcases GoMap.get_set_eq_some hentry with ⟨rfl, rfl⟩ | ⟨-, hold⟩
      · exact .inr ⟨rfl, has_waitingEntry.mp hd⟩
      · exact .inl (h.listed hold hd)
    · rw [has_listed, hhas, h.requested]
    · rcases hown hreq with hdigest | hold
      · exact hdigest
      · exact h.own hold
    · exact (GoMap.len_set_le _ _ _).trans hreg.2

end

/-! ## The arrival of a batch

The loop goes through the list of the batch as it was. `afterBatch` is what one turn makes of a
header, and since a second turn makes nothing more of it, the order of the list and its
repetitions do not matter. -/

/-- A header after the arrival of a batch, if it still waits. -/
def afterBatch (d : Hash) (entry : PendingHeaderEntry) : Option PendingHeaderEntry :=
  let missingBatch := entry.missingBatch.del d
  if missingBatch.len = 0 then none else some { entry with missingBatch }

theorem afterBatch_eq_none :
    afterBatch d entry = none ↔ ∀ d', entry.missingBatch.has d' = true → d' = d := by
  unfold afterBatch
  rw [ite_eq_left_iff]
  simp only [reduceCtorEq, imp_false, Decidable.not_not, GoMap.len_eq_zero_iff]
  refine forall_congr' fun d' => ?_
  rw [← Bool.not_eq_true, GoMap.has_del]
  tauto

theorem afterBatch_eq_some {entry entry' : PendingHeaderEntry}
    (h : afterBatch d entry = some entry') :
    entry' = { entry with missingBatch := entry.missingBatch.del d } ∧
      ∃ d', entry'.missingBatch.has d' = true := by
  unfold afterBatch at h
  dsimp only at h
  split at h
  · cases h
  · next hlen =>
      obtain rfl := Option.some.inj h
      refine ⟨rfl, ?_⟩
      by_contra hnone
      refine hlen (GoMap.len_eq_zero_iff.mpr fun d' => ?_)
      rw [← Bool.not_eq_true]
      exact fun hd' => hnone ⟨d', hd'⟩

theorem afterBatch_of_not_has (hd : entry.missingBatch.has d = false)
    (hwaits : ∃ d', entry.missingBatch.has d' = true) : afterBatch d entry = some entry := by
  have hdel : entry.missingBatch.del d = entry.missingBatch :=
    GoMap.del_of_get_none (by simpa [GoMap.has] using hd)
  obtain ⟨d', hd'⟩ := hwaits
  have hlen : entry.missingBatch.len ≠ 0 := by
    intro hzero
    rw [GoMap.len_eq_zero_iff.mp hzero d'] at hd'
    cases hd'
  unfold afterBatch
  rw [hdel, if_neg hlen]

theorem afterBatch_again {entry entry' : PendingHeaderEntry}
    (h : afterBatch d entry = some entry') : afterBatch d entry' = some entry' := by
  obtain ⟨heq, hwaits⟩ := afterBatch_eq_some h
  refine afterBatch_of_not_has ?_ hwaits
  rw [heq, ← Bool.not_eq_true, GoMap.has_del]
  simp

theorem batchArrived_eq (d : Hash) (acc : GoMap Hash PendingHeaderEntry × List Header)
    (k : Hash) : batchArrived d acc k =
      match acc.1.get k with
      | none => acc
      | some entry =>
        match afterBatch d entry with
        | none => (acc.1.del k, acc.2 ++ [entry.header])
        | some entry' => (acc.1.set k entry', acc.2) := by
  unfold batchArrived afterBatch
  cases acc.1.get k with
  | none => rfl
  | some entry =>
    dsimp only
    split
    · rfl
    · rfl

/-- What the loop over the headers listed for a batch leaves of those that wait, and which of
them it finds ready: each that is still there is looked at, even if it is listed more than once,
and is ready once. -/
structure Swept (d : Hash) (ks : List Hash) (pending pending' : GoMap Hash PendingHeaderEntry)
    (more : List Header) : Prop where
  left : ∀ k, pending'.get k =
    if k ∈ ks then (pending.get k).bind (afterBatch d) else pending.get k
  once : (more.map (·.digest)).Nodup
  ready : ∀ header, header ∈ more ↔ ∃ k ∈ ks, ∃ entry, pending.get k = some entry ∧
    afterBatch d entry = none ∧ header = entry.header

namespace Swept

variable {d k : Hash} {ks : List Hash} {pending pending' : GoMap Hash PendingHeaderEntry}
variable {more : List Header} {entry entry' : PendingHeaderEntry}

theorem absent (h : Swept d ks pending pending' more) (hget : pending.get k = none) :
    Swept d (k :: ks) pending pending' more := by
  refine ⟨fun k' => ?_, h.once, fun header => ?_⟩
  · rw [h.left]
    by_cases hk' : k' = k
    · rw [hk', hget]
      simp
    · simp [hk']
  · rw [h.ready]
    simp [hget]

theorem taken (h : Swept d ks (pending.del k) pending' more)
    (hkeyed : ∀ {k entry}, pending.get k = some entry → entry.header.digest = k)
    (hget : pending.get k = some entry) (hafter : afterBatch d entry = none) :
    Swept d (k :: ks) pending pending' (entry.header :: more) := by
  refine ⟨fun k' => ?_, ?_, fun header => ?_⟩
  · rw [h.left, GoMap.get_del]
    by_cases hk' : k' = k
    · rw [hk', hget]
      simp [hafter]
    · simp [hk']
  · rw [List.map_cons, List.nodup_cons]
    refine ⟨fun hmem => ?_, h.once⟩
    obtain ⟨header, hheader, hdigest⟩ := List.mem_map.mp hmem
    obtain ⟨k', -, entry', hentry', -, rfl⟩ := (h.ready header).mp hheader
    obtain ⟨hne, hold⟩ := GoMap.get_del_eq_some.mp hentry'
    rw [hkeyed hold, hkeyed hget] at hdigest
    exact hne hdigest
  · rw [List.mem_cons, h.ready]
    constructor
    · rintro (rfl | ⟨k', hk', entry', hentry', hnone, rfl⟩)
      · exact ⟨k, List.mem_cons_self, entry, hget, hafter, rfl⟩
      · exact ⟨k', List.mem_cons_of_mem k hk', entry',
          (GoMap.get_del_eq_some.mp hentry').2, hnone, rfl⟩
    · rintro ⟨k', hk', entry', hentry', hnone, rfl⟩
      by_cases hkk : k' = k
      · subst hkk
        obtain rfl := Option.some.inj (hget.symm.trans hentry')
        exact .inl rfl
      · refine .inr ⟨k', (List.mem_cons.mp hk').resolve_left hkk, entry', ?_, hnone, rfl⟩
        exact GoMap.get_del_eq_some.mpr ⟨hkk, hentry'⟩

/-- The first of them goes on waiting; listed again, it is found as it is left now. -/
theorem kept (h : Swept d ks (pending.set k entry') pending' more)
    (hget : pending.get k = some entry) (hafter : afterBatch d entry = some entry') :
    Swept d (k :: ks) pending pending' more := by
  refine ⟨fun k' => ?_, h.once, fun header => ?_⟩
  · rw [h.left, GoMap.get_set]
    by_cases hk' : k' = k
    · rw [hk', hget]
      simp [hafter, afterBatch_again hafter]
    · simp [hk']
  · rw [h.ready]
    constructor
    · rintro ⟨k', hk', e, he, hnone, rfl⟩
      rcases GoMap.get_set_eq_some he with ⟨rfl, rfl⟩ | ⟨-, hold⟩
      · rw [afterBatch_again hafter] at hnone
        cases hnone
      · exact ⟨k', List.mem_cons_of_mem k hk', e, hold, hnone, rfl⟩
    · rintro ⟨k', hk', e, he, hnone, rfl⟩
      have hkk : k' ≠ k := by
        rintro rfl
        obtain rfl := Option.some.inj (hget.symm.trans he)
        rw [hafter] at hnone
        cases hnone
      refine ⟨k', (List.mem_cons.mp hk').resolve_left hkk, e, ?_, hnone, rfl⟩
      rw [GoMap.get_set_ne hkk]
      exact he

end Swept

theorem foldl_batchArrived (d : Hash) {pending : GoMap Hash PendingHeaderEntry}
    (hkeyed : ∀ {k entry}, pending.get k = some entry → entry.header.digest = k)
    (ready : List Header) (ks : List Hash) :
    ∃ pending' more, ks.foldl (batchArrived d) (pending, ready) = (pending', ready ++ more) ∧
      Swept d ks pending pending' more := by
  induction ks generalizing pending ready with
  | nil => exact ⟨pending, [], by simp, by simp, by simp, by simp⟩
  | cons k ks ih =>
    rw [List.foldl_cons, batchArrived_eq]
    cases hget : pending.get k with
    | none =>
      obtain ⟨pending', more, hfold, hswept⟩ := ih hkeyed ready
      exact ⟨pending', more, hfold, hswept.absent hget⟩
    | some entry =>
      dsimp only
      cases hafter : afterBatch d entry with
      | none =>
        obtain ⟨pending', more, hfold, hswept⟩ :=
          ih (fun hk' => hkeyed (GoMap.get_del_eq_some.mp hk').2) (ready ++ [entry.header])
        rw [List.append_assoc] at hfold
        exact ⟨pending', entry.header :: more, hfold, hswept.taken hkeyed hget hafter⟩
      | some entry' =>
        have hkeyed' : ∀ {k' e}, (pending.set k entry').get k' = some e →
            e.header.digest = k' := by
          intro k' e he
          rcases GoMap.get_set_eq_some he with ⟨rfl, rfl⟩ | ⟨-, hold⟩
          · have hdigest := hkeyed hget
            rw [(afterBatch_eq_some hafter).1]
            exact hdigest
          · exact hkeyed hold
        obtain ⟨pending', more, hfold, hswept⟩ := ih hkeyed' ready
        exact ⟨pending', more, hfold, hswept.kept hget hafter⟩

/-- Every header that waits is looked at, whether it misses the batch or not. -/
theorem Bookkept.get_notifyBatchReceived (h : bf.Bookkept) (batch : Batch) (k : Hash) :
    (bf.notifyBatchReceived batch).2.pendingHeaders.get k =
      (bf.pendingHeaders.get k).bind (afterBatch batch.digest) := by
  obtain ⟨pending', more, hfold, hswept⟩ := foldl_batchArrived batch.digest h.keyed []
    ((bf.batchToHeaders.get batch.digest).getD [])
  show (((bf.batchToHeaders.get batch.digest).getD []).foldl (batchArrived batch.digest)
    (bf.pendingHeaders, [])).1.get k = _
  rw [hfold]
  rw [hswept.left]
  split
  · rfl
  · next hnot =>
      cases hget : bf.pendingHeaders.get k with
      | none => rfl
      | some entry =>
        have hnotmissed : entry.missingBatch.has batch.digest = false := by
          rw [← Bool.not_eq_true]
          exact fun hmissed => hnot (h.listed hget hmissed)
        exact (afterBatch_of_not_has hnotmissed (h.waits hget)).symm

/-- The headers that are ready are those that missed this batch and no other. -/
theorem Bookkept.mem_notifyBatchReceived (h : bf.Bookkept) (batch : Batch) (header : Header) :
    header ∈ (bf.notifyBatchReceived batch).1 ↔
      ∃ entry, bf.pendingHeaders.get header.digest = some entry ∧ entry.header = header ∧
        ∀ d, entry.missingBatch.has d = true ↔ d = batch.digest := by
  obtain ⟨pending', more, hfold, hswept⟩ := foldl_batchArrived batch.digest h.keyed []
    ((bf.batchToHeaders.get batch.digest).getD [])
  have hready : (bf.notifyBatchReceived batch).1 = more := congrArg Prod.snd hfold
  rw [hready, hswept.ready]
  constructor
  · rintro ⟨k, -, entry, hentry, hnone, rfl⟩
    refine ⟨entry, by rw [h.keyed hentry]; exact hentry, rfl, fun d =>
      ⟨afterBatch_eq_none.mp hnone d, ?_⟩⟩
    rintro rfl
    obtain ⟨d, hd⟩ := h.waits hentry
    rwa [← afterBatch_eq_none.mp hnone d hd]
  · rintro ⟨entry, hentry, rfl, hmissing⟩
    exact ⟨_, h.listed hentry ((hmissing _).mpr rfl), entry, hentry,
      afterBatch_eq_none.mpr fun d => (hmissing d).mp, rfl⟩

theorem Bookkept.nodup_notifyBatchReceived (h : bf.Bookkept) (batch : Batch) :
    ((bf.notifyBatchReceived batch).1.map (·.digest)).Nodup := by
  obtain ⟨pending', more, hfold, hswept⟩ := foldl_batchArrived batch.digest h.keyed []
    ((bf.batchToHeaders.get batch.digest).getD [])
  have hready : (bf.notifyBatchReceived batch).1 = more := congrArg Prod.snd hfold
  rw [hready]
  exact hswept.once

theorem Bookkept.gone_of_ready (h : bf.Bookkept) {batch : Batch} {header : Header}
    (hready : header ∈ (bf.notifyBatchReceived batch).1) :
    (bf.notifyBatchReceived batch).2.pendingHeaders.get header.digest = none := by
  obtain ⟨entry, hentry, -, hmissing⟩ := (h.mem_notifyBatchReceived batch header).mp hready
  rw [h.get_notifyBatchReceived, hentry]
  exact afterBatch_eq_none.mpr fun d => (hmissing d).mp

theorem Bookkept.notifyBatchReceived (h : bf.Bookkept) (batch : Batch) :
    (bf.notifyBatchReceived batch).2.Bookkept := by
  have hget := h.get_notifyBatchReceived batch
  -- What still waits is as it was, without the batch.
  have hfrom : ∀ {k entry}, (bf.notifyBatchReceived batch).2.pendingHeaders.get k = some entry →
      ∃ old, bf.pendingHeaders.get k = some old ∧
        entry = { old with missingBatch := old.missingBatch.del batch.digest } ∧
        ∃ d, entry.missingBatch.has d = true := by
    intro k entry hentry
    rw [hget] at hentry
    obtain ⟨old, hold, hafter⟩ := Option.bind_eq_some_iff.mp hentry
    exact ⟨old, hold, afterBatch_eq_some hafter⟩
  refine ⟨fun {k entry} hentry => ?_, fun {k entry} hentry => ?_,
    fun {k entry d} hentry hd => ?_, fun d => ?_, fun {d req} hreq => ?_, ?_⟩
  · obtain ⟨old, hold, rfl, -⟩ := hfrom hentry
    have hdigest := h.keyed hold
    exact hdigest
  · obtain ⟨old, hold, -, hwaits⟩ := hfrom hentry
    exact hwaits
  · obtain ⟨old, hold, rfl, -⟩ := hfrom hentry
    obtain ⟨hne, hd⟩ := GoMap.has_del.mp hd
    show k ∈ ((bf.batchToHeaders.del batch.digest).get d).getD []
    rw [GoMap.get_del, if_neg hne]
    exact h.listed hold hd
  · show (bf.batchToHeaders.del batch.digest).has d = true ↔
      (bf.pendingRequests.del batch.digest).has d = true
    rw [GoMap.has_del, GoMap.has_del, h.requested]
  · exact h.own (GoMap.get_del_eq_some.mp hreq).2
  · refine (GoMap.len_le_of_has fun k hk => ?_).trans h.bounded
    obtain ⟨entry, hentry⟩ := GoMap.has_iff.mp hk
    obtain ⟨old, hold, -⟩ := hfrom hentry
    exact GoMap.has_iff.mpr ⟨old, hold⟩

theorem Bookkept.cleanupTimedOutRequests (h : bf.Bookkept)
    (order : IterOrder PendingBatchRequest) (now : Int) :
    (bf.cleanupTimedOutRequests order now).1.Bookkept := by
  have howned : bf.Owned := fun d req hget => h.own hget
  have hown := howned.cleanupTimedOutRequests order now
  have hhas := has_cleanupTimedOutRequests howned order now
  obtain ⟨reqs, hcleanup⟩ := bf.cleanupTimedOutRequests_eq order now
  rw [hcleanup] at hown hhas ⊢
  refine ⟨fun {k entry} hentry => ?_, fun {k entry} hentry => ?_,
    fun {k entry d} hentry hd => ?_, fun d => ?_, hown _ _, ?_⟩
  · exact h.keyed (GoMap.get_delAll_eq_some.mp hentry).2
  · exact h.waits (GoMap.get_delAll_eq_some.mp hentry).2
  · obtain ⟨hkept, hold⟩ := GoMap.get_delAll_eq_some.mp hentry
    have hlisted := h.listed hold hd
    -- Had the request been given up, the header would be gone.
    have hnot : d ∉ bf.failedDigests order now := fun hfailed =>
      hkept (List.mem_flatMap.mpr ⟨d, hfailed, hlisted⟩)
    rw [GoMap.get_delAll, if_neg hnot]
    exact hlisted
  · rw [hhas, ← h.requested]
    simp only [GoMap.has_iff, GoMap.get_delAll_eq_some, exists_and_left]
    exact and_comm
  · refine (GoMap.len_le_of_has fun k hk => ?_).trans h.bounded
    obtain ⟨entry, hentry⟩ := GoMap.has_iff.mp hk
    exact GoMap.has_iff.mpr ⟨entry, (GoMap.get_delAll_eq_some.mp hentry).2⟩

theorem Bookkept.cleanupTimedOutHeaders (h : bf.Bookkept) (now : Int) :
    (bf.cleanupTimedOutHeaders now).Bookkept := by
  have hfrom : ∀ {k entry}, (bf.cleanupTimedOutHeaders now).pendingHeaders.get k = some entry →
      bf.pendingHeaders.get k = some entry := fun hentry => (GoMap.get_filter_eq_some.mp hentry).1
  refine ⟨fun hentry => h.keyed (hfrom hentry), fun hentry => h.waits (hfrom hentry),
    fun hentry => h.listed (hfrom hentry), h.requested, h.own, ?_⟩
  refine (GoMap.len_le_of_has fun k hk => ?_).trans h.bounded
  obtain ⟨entry, hentry⟩ := GoMap.has_iff.mp hk
  exact GoMap.has_iff.mpr ⟨entry, hfrom hentry⟩

/-! ## Runs

What happened to headers is an output of the calls. `ReadyOnce` says of it what is claimed, and
`Accounted` adds the headers that wait, each of which was registered and not ready since. -/

end BatchFetcher

/-- The calls of the fetcher. The batch store is what it is at the time of the call. -/
inductive FetcherCall (BS : Type) where
  | requestBatchesForHeader (batchStore : BS) (header : Header)
  | notifyBatchReceived (batch : Batch)
  | handleBatchResponse (batchStore : BS) (batch : Option Batch) (found : Bool)
  | cleanupTimedOutRequests (order : IterOrder PendingBatchRequest)
  | cleanupTimedOutHeaders
  | updateValidators (validators : List UInt16)

inductive HeaderEvent where
  | registered (header : Header)
  | ready (header : Header)

/-- Each time a header is ready it was registered before, and no header of its digest was ready
in between. -/
def ReadyOnce (log : List HeaderEvent) : Prop :=
  ∀ (i : Nat) header, log[i]? = some (.ready header) →
    ∃ j < i, log[j]? = some (.registered header) ∧
      ∀ (m : Nat) header', j < m → m < i → log[m]? = some (.ready header') →
        header'.digest ≠ header.digest

namespace BatchFetcher

variable {bf bf' : BatchFetcher} {log : List HeaderEvent}

def call {BS : Type} [BatchStore BS] (bf : BatchFetcher) :
    FetcherCall BS × Int → BatchFetcher × List HeaderEvent
  | (.requestBatchesForHeader batchStore header, now) =>
    ((bf.requestBatchesForHeader batchStore header now).2.1,
      if bf.registers batchStore header then [.registered header] else [])
  | (.notifyBatchReceived batch, _) =>
    ((bf.notifyBatchReceived batch).2, (bf.notifyBatchReceived batch).1.map .ready)
  | (.handleBatchResponse batchStore batch found, _) =>
    ((bf.handleBatchResponse batchStore batch found).2.1,
      (bf.handleBatchResponse batchStore batch found).1.map .ready)
  | (.cleanupTimedOutRequests order, now) => ((bf.cleanupTimedOutRequests order now).1, [])
  | (.cleanupTimedOutHeaders, now) => (bf.cleanupTimedOutHeaders now, [])
  | (.updateValidators validators, _) => (bf.updateValidators validators, [])

/-- Every header that waits was registered, and was not ready since. -/
structure Accounted (bf : BatchFetcher) (log : List HeaderEvent) : Prop where
  once : ReadyOnce log
  awaited : ∀ {k entry}, bf.pendingHeaders.get k = some entry →
    ∃ j : Nat, log[j]? = some (.registered entry.header) ∧
      ∀ (m : Nat) header, j < m → log[m]? = some (.ready header) → header.digest ≠ k

theorem accounted_new (cfg : BatchFetcherConfig) : (new cfg).Accounted [] where
  once i header h := absurd h (by simp)
  awaited h := absurd h (by simp [new])

theorem Accounted.mono (h : bf.Accounted log)
    (hsub : ∀ {k entry}, bf'.pendingHeaders.get k = some entry →
      bf.pendingHeaders.get k = some entry) : bf'.Accounted log :=
  ⟨h.once, fun hentry => h.awaited (hsub hentry)⟩

theorem getElem?_events {log more : List HeaderEvent} {i : Nat} {e : HeaderEvent}
    (h : (log ++ more)[i]? = some e) :
    log[i]? = some e ∨ log.length ≤ i ∧ more[i - log.length]? = some e := by
  rw [List.getElem?_append] at h
  split at h
  · exact .inl h
  · next hle => exact .inr ⟨Nat.le_of_not_lt hle, h⟩

theorem getElem?_events_of_some {i : Nat} {e : HeaderEvent} (h : log[i]? = some e)
    (more : List HeaderEvent) : i < log.length ∧ (log ++ more)[i]? = some e := by
  have hlt : i < log.length := (List.getElem?_eq_some_iff.mp h).1
  exact ⟨hlt, by rw [List.getElem?_append_left hlt, h]⟩

theorem Accounted.register (h : bf.Accounted log) {entry : PendingHeaderEntry}
    (hset : bf'.pendingHeaders = bf.pendingHeaders.set entry.header.digest entry) :
    bf'.Accounted (log ++ [.registered entry.header]) := by
  have hready : ∀ {i : Nat} {header}, (log ++ [.registered entry.header])[i]? =
      some (.ready header) → log[i]? = some (.ready header) := by
    intro i header hi
    refine (getElem?_events hi).resolve_right ?_
    rintro ⟨-, hnew⟩
    exact absurd (List.mem_of_getElem? hnew) (by simp)
  refine ⟨fun i header hi => ?_, fun {k entry'} hentry => ?_⟩
  · obtain ⟨j, hji, hj, hbetween⟩ := h.once i header (hready hi)
    exact ⟨j, hji, (getElem?_events_of_some hj _).2, fun m header' hjm hmi hm =>
      hbetween m header' hjm hmi (hready hm)⟩
  · rw [hset] at hentry
    rcases GoMap.get_set_eq_some hentry with ⟨rfl, rfl⟩ | ⟨-, hold⟩
    · refine ⟨log.length, by simp, fun m header hm hlog => ?_⟩
      have hlt := (List.getElem?_eq_some_iff.mp (hready hlog)).1
      omega
    · obtain ⟨j, hj, hsince⟩ := h.awaited hold
      exact ⟨j, (getElem?_events_of_some hj _).2, fun m header hjm hm =>
        hsince m header hjm (hready hm)⟩

theorem Accounted.ready (h : bf.Accounted log) {headers : List Header}
    (hnodup : (headers.map (·.digest)).Nodup)
    (hwaited : ∀ header ∈ headers, ∃ entry, bf.pendingHeaders.get header.digest = some entry ∧
      entry.header = header ∧ bf'.pendingHeaders.get header.digest = none)
    (hkept : ∀ {k entry}, bf'.pendingHeaders.get k = some entry →
      ∃ old, bf.pendingHeaders.get k = some old ∧ old.header = entry.header) :
    bf'.Accounted (log ++ headers.map .ready) := by
  have hnew : ∀ {i : Nat} {header}, (headers.map HeaderEvent.ready)[i]? = some (.ready header) →
      headers[i]? = some header := by
    intro i header hi
    rw [List.getElem?_map, Option.map_eq_some_iff] at hi
    obtain ⟨header', hheader', heq⟩ := hi
    rwa [HeaderEvent.ready.inj heq] at hheader'
  refine ⟨fun i header hi => ?_, fun {k entry} hentry => ?_⟩
  · rcases getElem?_events hi with hold | ⟨hle, hi⟩
    · obtain ⟨j, hji, hj, hbetween⟩ := h.once i header hold
      refine ⟨j, hji, (getElem?_events_of_some hj _).2, fun m header' hjm hmi hm => ?_⟩
      have hlt := (List.getElem?_eq_some_iff.mp hold).1
      rcases getElem?_events hm with hm | ⟨hle, -⟩
      · exact hbetween m header' hjm hmi hm
      · omega
    · have hi := hnew hi
      obtain ⟨entry, hentry, rfl, -⟩ := hwaited header (List.mem_of_getElem? hi)
      obtain ⟨j, hj, hsince⟩ := h.awaited hentry
      obtain ⟨hlt, hj⟩ := getElem?_events_of_some hj (headers.map .ready)
      refine ⟨j, by omega, hj, fun m header' hjm hmi hm => ?_⟩
      rcases getElem?_events hm with hm | ⟨hle', hm⟩
      · exact hsince m header' hjm hm
      · -- Two headers that are ready now have different digests.
        have hm := hnew hm
        intro hdigest
        have hlt := (List.getElem?_eq_some_iff.mp hi).1
        refine List.nodup_iff_getElem?_ne_getElem?.mp hnodup (m - log.length) (i - log.length)
          (by omega) (by simpa using hlt) ?_
        rw [List.getElem?_map, List.getElem?_map, hm, hi, Option.map_some, Option.map_some,
          hdigest]
  · obtain ⟨old, hold, hheader⟩ := hkept hentry
    obtain ⟨j, hj, hsince⟩ := h.awaited hold
    rw [hheader] at hj
    refine ⟨j, (getElem?_events_of_some hj _).2, fun m header hjm hm => ?_⟩
    rcases getElem?_events hm with hm | ⟨-, hm⟩
    · exact hsince m header hjm hm
    · rintro rfl
      obtain ⟨-, -, -, hnone⟩ := hwaited header (List.mem_of_getElem? (hnew hm))
      exact absurd (hnone.symm.trans hentry) (by simp)

section

variable {BS : Type} [BatchStore BS]

theorem handleBatchResponse_cases (bf : BatchFetcher) (batchStore : BS) (batch : Option Batch)
    (found : Bool) :
    ((bf.handleBatchResponse batchStore batch found).1 = [] ∧
      (bf.handleBatchResponse batchStore batch found).2.1 = bf) ∨
    ∃ b, (bf.handleBatchResponse batchStore batch found).1 = (bf.notifyBatchReceived b).1 ∧
      (bf.handleBatchResponse batchStore batch found).2.1 = (bf.notifyBatchReceived b).2 := by
  unfold handleBatchResponse
  split
  · exact .inl ⟨rfl, rfl⟩
  · next b =>
      split
      · exact .inl ⟨rfl, rfl⟩
      · exact .inr ⟨b, rfl, rfl⟩

theorem Bookkept.call (h : bf.Bookkept) (c : FetcherCall BS × Int) :
    (bf.call c).1.Bookkept ∧ (bf.call c).1.cfg = bf.cfg := by
  obtain ⟨c, now⟩ := c
  cases c with
  | requestBatchesForHeader batchStore header =>
    refine ⟨h.requestBatchesForHeader batchStore header now, ?_⟩
    show (bf.requestBatchesForHeader batchStore header now).2.1.cfg = bf.cfg
    cases hreg : bf.registers batchStore header with
    | false => rw [requestBatchesForHeader_of_not_registers hreg]
    | true =>
      obtain ⟨reqs, hrequest, -⟩ := requestBatchesForHeader_of_registers hreg now
      rw [hrequest]
  | notifyBatchReceived batch => exact ⟨h.notifyBatchReceived batch, rfl⟩
  | handleBatchResponse batchStore batch found =>
    show (bf.handleBatchResponse batchStore batch found).2.1.Bookkept ∧
      (bf.handleBatchResponse batchStore batch found).2.1.cfg = bf.cfg
    rcases bf.handleBatchResponse_cases batchStore batch found with ⟨-, hsame⟩ | ⟨b, -, hb⟩
    · rw [hsame]
      exact ⟨h, rfl⟩
    · rw [hb]
      exact ⟨h.notifyBatchReceived b, rfl⟩
  | cleanupTimedOutRequests order =>
    refine ⟨h.cleanupTimedOutRequests order now, ?_⟩
    obtain ⟨reqs, hcleanup⟩ := bf.cleanupTimedOutRequests_eq order now
    show (bf.cleanupTimedOutRequests order now).1.cfg = bf.cfg
    rw [hcleanup]
  | cleanupTimedOutHeaders => exact ⟨h.cleanupTimedOutHeaders now, rfl⟩
  | updateValidators validators =>
    exact ⟨⟨h.keyed, h.waits, h.listed, h.requested, h.own, h.bounded⟩, rfl⟩

theorem Accounted.notifyBatchReceived (h : bf.Accounted log) (hbf : bf.Bookkept) (batch : Batch) :
    (bf.notifyBatchReceived batch).2.Accounted
      (log ++ (bf.notifyBatchReceived batch).1.map .ready) := by
  refine h.ready (hbf.nodup_notifyBatchReceived batch) (fun header hready => ?_)
    fun {k entry} hentry => ?_
  · obtain ⟨entry, hentry, hheader, -⟩ := (hbf.mem_notifyBatchReceived batch header).mp hready
    exact ⟨entry, hentry, hheader, hbf.gone_of_ready hready⟩
  · rw [hbf.get_notifyBatchReceived] at hentry
    obtain ⟨old, hold, hafter⟩ := Option.bind_eq_some_iff.mp hentry
    exact ⟨old, hold, by rw [(afterBatch_eq_some hafter).1]⟩

theorem Accounted.call (h : bf.Accounted log) (hbf : bf.Bookkept) (c : FetcherCall BS × Int) :
    (bf.call c).1.Accounted (log ++ (bf.call c).2) := by
  obtain ⟨c, now⟩ := c
  cases c with
  | requestBatchesForHeader batchStore header =>
    show (bf.requestBatchesForHeader batchStore header now).2.1.Accounted
      (log ++ if bf.registers batchStore header then [.registered header] else [])
    cases hreg : bf.registers batchStore header with
    | false =>
      rw [requestBatchesForHeader_of_not_registers hreg, if_neg (by simp), List.append_nil]
      exact h
    | true =>
      obtain ⟨reqs, hrequest, -⟩ := requestBatchesForHeader_of_registers hreg now
      rw [if_pos rfl]
      have hset : (bf.requestBatchesForHeader batchStore header now).2.1.pendingHeaders =
          bf.pendingHeaders.set (waitingEntry batchStore header now).header.digest
            (waitingEntry batchStore header now) := by
        rw [hrequest]
        rfl
      exact h.register hset
  | notifyBatchReceived batch => exact h.notifyBatchReceived hbf batch
  | handleBatchResponse batchStore batch found =>
    show (bf.handleBatchResponse batchStore batch found).2.1.Accounted
      (log ++ (bf.handleBatchResponse batchStore batch found).1.map .ready)
    rcases bf.handleBatchResponse_cases batchStore batch found with ⟨hnone, hsame⟩ | ⟨b, hr, hb⟩
    · rw [hnone, hsame, List.map_nil, List.append_nil]
      exact h
    · rw [hr, hb]
      exact h.notifyBatchReceived hbf b
  | cleanupTimedOutRequests order =>
    obtain ⟨reqs, hcleanup⟩ := bf.cleanupTimedOutRequests_eq order now
    show (bf.cleanupTimedOutRequests order now).1.Accounted (log ++ [])
    rw [hcleanup, List.append_nil]
    exact h.mono fun hentry => (GoMap.get_delAll_eq_some.mp hentry).2
  | cleanupTimedOutHeaders =>
    show (bf.cleanupTimedOutHeaders now).Accounted (log ++ [])
    rw [List.append_nil]
    exact h.mono fun hentry => (GoMap.get_filter_eq_some.mp hentry).1
  | updateValidators validators =>
    show (bf.updateValidators validators).Accounted (log ++ [])
    rw [List.append_nil]
    exact h.mono id

theorem Bookkept.exec (h : bf.Bookkept) (hlog : bf.Accounted log)
    (calls : List (FetcherCall BS × Int)) :
    let run := Run.exec BatchFetcher.call bf log calls
    run.1.Bookkept ∧ run.1.Accounted run.2 ∧ run.1.cfg = bf.cfg := by
  refine Run.exec_invariant (I := fun (bf' : BatchFetcher) log =>
    bf'.Bookkept ∧ bf'.Accounted log ∧ bf'.cfg = bf.cfg) ?_ ⟨h, hlog, rfl⟩ calls
  rintro bf' log c ⟨hbookkept, haccounted, hcfg⟩
  obtain ⟨hnext, hcfg'⟩ := hbookkept.call c
  exact ⟨hnext, haccounted.call hbookkept c, hcfg'.trans hcfg⟩

/-- After any calls: every header that waits misses something, and for each batch it misses it
is listed and a request is under way; exactly the batches with a list are requested; no more
headers wait than may. The arrival of a batch makes ready the headers that missed it and nothing
else, and these wait no more; and a header that was ready is not so again unless it was
registered again. -/
theorem fetcher_bookkeeping (cfg : BatchFetcherConfig) (calls : List (FetcherCall BS × Int)) :
    let run := Run.exec call (new cfg) [] calls
    (∀ k entry, run.1.pendingHeaders.get k = some entry →
      entry.header.digest = k ∧ (∃ d, entry.missingBatch.has d = true) ∧
      ∀ d, entry.missingBatch.has d = true →
        k ∈ (run.1.batchToHeaders.get d).getD [] ∧ run.1.pendingRequests.has d = true) ∧
    (∀ d, run.1.batchToHeaders.has d = true ↔ run.1.pendingRequests.has d = true) ∧
    run.1.pendingHeaders.len ≤ cfg.maxPendingHeaders ∧
    (∀ batch header, header ∈ (run.1.notifyBatchReceived batch).1 ↔
      ∃ entry, run.1.pendingHeaders.get header.digest = some entry ∧ entry.header = header ∧
        ∀ d, entry.missingBatch.has d = true ↔ d = batch.digest) ∧
    (∀ batch header, header ∈ (run.1.notifyBatchReceived batch).1 →
      (run.1.notifyBatchReceived batch).2.pendingHeaders.get header.digest = none) ∧
    ReadyOnce run.2 := by
  obtain ⟨hinv, hlog, hcfg⟩ := (bookkept_new cfg).exec (accounted_new cfg) calls
  refine ⟨fun k entry hentry => ⟨hinv.keyed hentry, hinv.waits hentry, fun d hd =>
    ⟨hinv.listed hentry hd, hinv.has_request hentry hd⟩⟩, hinv.requested, ?_,
    hinv.mem_notifyBatchReceived, fun batch header => hinv.gone_of_ready, hlog.once⟩
  have hbounded := hinv.bounded
  rwa [hcfg] at hbounded

end

end BatchFetcher

end DagMempool
