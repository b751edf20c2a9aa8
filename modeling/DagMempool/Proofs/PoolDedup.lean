import DagMempool.Proofs.PoolRuns
import DagMempool.Worker.Ideal

/-!
# De-duplication across the workers of a pool

A transaction is kept out twice over: by the set of the worker it is routed to, and by
the index all workers share. Neither knows it while its batch is being made, between
the moment it leaves the heap and the moment the batch is indexed, and the set of the
worker it is routed to now does not know it if it was routed elsewhere before the pool
was scaled. A transaction added again in one of these two situations is taken again.

In a run where that does not happen, every hash has one place at most: a queue, a batch
that is not saved yet, or a batch that is. The invariant counts these places, and all
events but `AddTx` only move hashes from one to another.
-/

namespace DagMempool

section

variable [Crypto] {BS TI : Type} [BatchStore BS] [TxIndex TI]

namespace PoolSystem

/-- How often a hash is pending, in a batch not saved yet, or in a batch created. -/
def held (s : PoolSystem BS TI) (log : List Batch) (h : Hash) : Nat :=
  s.pool.pendingHashes.count h + (s.creating.flatMap BatchCreation.taken).count h +
    (log.flatMap Batch.txHashes).count h

variable {s : PoolSystem BS TI} {log : List Batch}

omit [BatchStore BS] [TxIndex TI] in
theorem held_withWorker {idx : Nat} {w w' : Worker} {c c' : Option BatchCreation}
    {batches : List Batch} {h : Hash} (hw : s.pool.workers[idx]? = some w)
    (hc : s.creating[idx]? = some c)
    (hle : w'.pendingHashes.count h + (BatchCreation.taken c').count h +
        (batches.flatMap Batch.txHashes).count h ≤
      w.pendingHashes.count h + (BatchCreation.taken c).count h) :
    (s.withWorker idx w' c').held (log ++ batches) h ≤ s.held log h := by
  have hworkers := count_flatMap_set Worker.pendingHashes hw w' h
  have hcreating := count_flatMap_set BatchCreation.taken hc c' h
  simp only [held, withWorker, Pool.pendingHashes, List.flatMap_append, List.count_append]
  omega

/-- The transactions of the removed worker's batch are the only ones stopping it puts
in batches, as the worker is drained. -/
theorem count_stopRemoved (s : PoolSystem BS TI) (w : Worker) (now : Int) (h : Hash) :
    ((s.stopRemoved w now).1.flatMap Batch.txHashes).count h ≤
      (BatchCreation.taken s.creating.getLast?.join).count h := by
  unfold stopRemoved
  generalize hf : w.drainPending.2.finishBatch s.batchStore s.txIndex now
    s.creating.getLast?.join = finished
  have hfinish := w.drainPending.2.count_finishBatch s.batchStore s.txIndex now
    s.creating.getLast?.join h
  rw [hf, Worker.pendingHashes_drainPending, List.count_nil] at hfinish
  have hstop := finished.2.1.count_stop finished.2.2.1 finished.2.2.2 now h
  rw [List.flatMap_append, List.count_append]
  omega

theorem held_withoutLast (hs : s.Sound) {w : Worker}
    (hlast : s.pool.workers.getLast? = some w) (now : Int) (h : Hash) :
    (s.withoutLast w now).held (log ++ (s.stopRemoved w now).1) h ≤ s.held log h := by
  have hne : s.creating ≠ [] := by
    rintro hnil
    have hlen := hs.lengths
    rw [hnil, List.length_nil] at hlen
    rw [List.eq_nil_of_length_eq_zero hlen.symm] at hlast
    cases hlast
  obtain ⟨c, hc⟩ := Option.isSome_iff_exists.mp (List.getLast?_isSome.mpr hne)
  have hstopped := s.count_stopRemoved w now h
  rw [hc] at hstopped
  have hworkers := count_flatMap_dropLast Worker.pendingHashes hlast h
  have hcreating := count_flatMap_dropLast BatchCreation.taken hc h
  have hadded := s.remaining.count_addTxs (s.stopRemoved w now).2.2 w.drainPending.1 h
  rw [w.hashes_drainPending] at hadded
  simp only [held, withoutLast, List.flatMap_append, List.count_append]
  simp only [Pool.pendingHashes, remaining, Option.join_some] at hadded hstopped ⊢
  omega

omit [BatchStore BS] [TxIndex TI] in
theorem held_sameQueues {p : Pool} (h : s.pool.SameQueues p) (d : Hash) :
    { s with pool := p }.held (log ++ []) d = s.held log d := by
  simp only [held, h.pendingHashes, List.append_nil]

theorem taken_replicate (n : Nat) :
    (List.replicate n none).flatMap BatchCreation.taken = [] := by
  rw [List.flatMap_eq_nil_iff]
  intro c hc
  rw [List.eq_of_mem_replicate hc]
  rfl

omit [BatchStore BS] [TxIndex TI] in
theorem held_scaleUp (h : Hash) :
    { s with
      pool := s.pool.scaleUp
      creating := s.creating.rightpad s.pool.scaleUp.workers.length none }.held
        (log ++ []) h = s.held log h := by
  simp only [held, Pool.pendingHashes_scaleUp, List.rightpad, List.flatMap_append,
    taken_replicate, List.append_nil]

theorem held_step (hs : s.Sound) {e : PoolEvent} (hne : ∀ tx, e ≠ .addTx tx) (now : Int)
    (h : Hash) :
    (s.step (e, now)).1.held (log ++ (s.step (e, now)).2) h ≤ s.held log h := by
  cases e with
  | addTx tx => exact absurd rfl (hne tx)
  | scaleUp => exact (held_scaleUp h).le
  | scaleDown =>
    rcases s.scaleDown_cases now with he | ⟨w, hlast, he⟩
    · rw [step, he, List.append_nil]
    · rw [step, he]
      exact held_withoutLast hs hlast now h
  | pop idx =>
    dsimp only [step]
    split
    · next w hw hc =>
        refine held_withWorker hw hc ?_
        have hbegin := w.beginBatch_perm.count_eq h
        rw [List.count_append] at hbegin
        simp only [List.flatMap_nil, List.count_nil]
        omega
    · rw [List.append_nil]
  | save idx =>
    dsimp only [step]
    split
    · next w txs hw hc =>
        refine held_withWorker hw hc ?_
        have hsaved := w.count_saveTxs s.batchStore txs now h
        have hnone :
            BatchCreation.taken ((w.saveTxs s.batchStore txs now).1.map .saved) = [] := by
          cases (w.saveTxs s.batchStore txs now).1 with
          | none => rfl
          | some batch => rfl
        rw [hnone, List.count_nil]
        exact hsaved
    · rw [List.append_nil]
  | index idx =>
    dsimp only [step]
    split
    · next w batch hw hc => exact held_withWorker hw hc (Nat.le_refl _)
    · rw [List.append_nil]
  | setTxValidator txValidator =>
    exact (held_sameQueues (p := { s.pool with txValidator }) rfl h).le
  | setRound round => exact (held_sameQueues (s.pool.sameQueues_setRound round) h).le
  | updateQuorum quorum => exact (held_sameQueues (s.pool.sameQueues_updateQuorum quorum) h).le
  | recordAck batchDigest validator =>
    exact (held_sameQueues (s.pool.sameQueues_recordAck batchDigest validator) h).le
  | removeTimedOutAcks =>
    exact (held_sameQueues (s.pool.sameQueues_removeTimedOutAcks now) h).le

end PoolSystem

/-! ## The index knows what is batched

A batch is indexed after it is saved, by the worker that made it or by the one that stops it. -/

section Index

variable [AcceptingTxIndex TI]

/-- An index that has taken some batches, and perhaps others. -/
structure Grown (given : Batch → Prop) (txIndex txIndex' : TI) (batches : List Batch) : Prop where
  accepts : AcceptingTxIndex.accepts given txIndex'
  keeps : ∀ {h}, TxIndex.hasTx txIndex h = true → TxIndex.hasTx txIndex' h = true
  indexes : ∀ b ∈ batches, ∀ h ∈ b.txHashes, TxIndex.hasTx txIndex' h = true

variable {given : Batch → Prop} {txIndex txIndex' txIndex'' : TI} {batches batches' : List Batch}

theorem Grown.refl (h : AcceptingTxIndex.accepts given txIndex) :
    Grown given txIndex txIndex [] :=
  ⟨h, id, fun b hb => absurd hb (by simp)⟩

theorem Grown.addBatch (h : AcceptingTxIndex.accepts given txIndex) {b : Batch} (hb : given b) :
    Grown given txIndex (TxIndex.addBatch txIndex b).2 [b] where
  accepts := AcceptingTxIndex.accepts_addBatch h hb
  keeps hold := AcceptingTxIndex.hasTx_addBatch h hb (.inl hold)
  indexes b' hb' d hd := by
    obtain rfl := List.mem_singleton.mp hb'
    exact AcceptingTxIndex.hasTx_addBatch h hb (.inr hd)

theorem Grown.trans (h : Grown given txIndex txIndex' batches)
    (h' : Grown given txIndex' txIndex'' batches') :
    Grown given txIndex txIndex'' (batches ++ batches') where
  accepts := h'.accepts
  keeps hold := h'.keeps (h.keeps hold)
  indexes b hb d hd := by
    rcases List.mem_append.mp hb with hold | hnew
    · exact h'.keeps (h.indexes b hold d hd)
    · exact h'.indexes b hnew d hd

theorem Worker.finishBatch_grown (h : AcceptingTxIndex.accepts given txIndex) (w : Worker)
    (batchStore : BS) (now : Int) {c : Option BatchCreation}
    (hsaved : ∀ b, c = some (.saved b) → given b)
    (hmade : ∀ b ∈ (w.finishBatch batchStore txIndex now c).1.toList, given b) :
    Grown given txIndex (w.finishBatch batchStore txIndex now c).2.2.2
        (w.finishBatch batchStore txIndex now c).1.toList ∧
      ∀ b, c = some (.saved b) → ∀ d ∈ b.txHashes,
        TxIndex.hasTx (w.finishBatch batchStore txIndex now c).2.2.2 d = true := by
  match c with
  | none => exact ⟨.refl h, fun b hb => absurd hb (by simp)⟩
  | some (.saved batch) =>
    have hgrown := Grown.addBatch h (hsaved batch rfl)
    refine ⟨⟨hgrown.accepts, hgrown.keeps, fun b hb => absurd hb (by simp [finishBatch])⟩,
      fun b hb => ?_⟩
    cases hb
    exact hgrown.indexes batch (List.mem_singleton_self _)
  | some (.popped txs) =>
    refine ⟨?_, fun b hb => absurd hb (by simp)⟩
    dsimp only [finishBatch] at hmade ⊢
    split
    · exact .refl h
    · next heq =>
        rw [heq] at hmade
        exact .addBatch h (hmade _ (by simp))

theorem Worker.stop_grown (h : AcceptingTxIndex.accepts given txIndex) (w : Worker)
    (batchStore : BS) (now : Int)
    (hmade : ∀ b ∈ (w.stop batchStore txIndex now).1.toList, given b) :
    Grown given txIndex (w.stop batchStore txIndex now).2.2.2
      (w.stop batchStore txIndex now).1.toList := by
  unfold stop at hmade ⊢
  split
  · exact .refl h
  · next hrunning =>
      rw [if_neg hrunning] at hmade
      rw [tryCreateBatch_eq] at hmade ⊢
      exact (finishBatch_grown h _ _ _ (by simp) hmade).1

theorem PoolSystem.stopRemoved_grown {s : PoolSystem BS TI}
    (h : AcceptingTxIndex.accepts given s.txIndex) (w : Worker) (now : Int)
    (hsaved : ∀ b, some (.saved b) ∈ s.creating → given b)
    (hmade : ∀ b ∈ (s.stopRemoved w now).1, given b) :
    Grown given s.txIndex (s.stopRemoved w now).2.2 (s.stopRemoved w now).1 ∧
      ∀ b, s.creating.getLast? = some (some (.saved b)) → ∀ d ∈ b.txHashes,
        TxIndex.hasTx (s.stopRemoved w now).2.2 d = true := by
  obtain ⟨hfinish, hlast⟩ := Worker.finishBatch_grown h w.drainPending.2 s.batchStore now
    (c := s.creating.getLast?.join)
    (fun b hb => hsaved b (List.mem_of_getLast? (Option.join_eq_some_iff.mp hb)))
    fun b hb => hmade b (List.mem_append_left _ hb)
  have hstop := Worker.stop_grown hfinish.accepts
    (w.drainPending.2.finishBatch s.batchStore s.txIndex now s.creating.getLast?.join).2.1
    (w.drainPending.2.finishBatch s.batchStore s.txIndex now s.creating.getLast?.join).2.2.1 now
    fun b hb => hmade b (List.mem_append_right _ hb)
  refine ⟨hfinish.trans hstop, fun b hget d hd => hstop.keeps (hlast b ?_ d hd)⟩
  rw [hget]
  rfl

end Index

/-! ## Runs that add where one of the two knows

In such a run a hash that is added is nowhere, or is known to the worker it is routed to or to the
index, which refuse it. -/

namespace PoolSystem

/-- The transaction is in no batch in the making, and pending in no worker but the one
it is routed to. -/
def Clear (s : PoolSystem BS TI) (tx : Transaction) : Prop :=
  tx.hash ∉ s.creating.flatMap BatchCreation.hashes ∧
    tx.hash ∉ (s.pool.workers.eraseIdx (s.pool.route tx)).flatMap Worker.pendingHashes

/-- A transaction that the index does not know is added only if it is clear. -/
def AddsClear (s : PoolSystem BS TI) (_ : List Batch) : PoolEvent × Int → Prop
  | (.addTx tx, _) => TxIndex.hasTx s.txIndex tx.hash = true ∨ s.Clear tx
  | _ => True

instance (s : PoolSystem BS TI) (log : List Batch) : ∀ e, Decidable (AddsClear s log e)
  | (.addTx _, _) => inferInstanceAs (Decidable (_ = _ ∨ _ ∉ _ ∧ _ ∉ _))
  | (.scaleUp, _) | (.scaleDown, _) | (.pop _, _) | (.save _, _) | (.index _, _)
  | (.setTxValidator _, _) | (.setRound _, _) | (.updateQuorum _, _) | (.recordAck _ _, _)
  | (.removeTimedOutAcks, _) => .isTrue trivial

omit [BatchStore BS] [TxIndex TI] in
theorem taken_subset_hashes (s : PoolSystem BS TI) {h : Hash}
    (hh : h ∈ s.creating.flatMap BatchCreation.taken) :
    h ∈ s.creating.flatMap BatchCreation.hashes := by
  obtain ⟨c, hc, hmem⟩ := List.mem_flatMap.mp hh
  refine List.mem_flatMap.mpr ⟨c, hc, ?_⟩
  match c with
  | none => exact hmem
  | some (.popped _) => exact hmem
  | some (.saved _) => exact absurd hmem (by simp [BatchCreation.taken])

variable [AcceptingTxIndex TI]

/-- A pool just started over an index that takes some batches. -/
def StartedOpen (given : Batch → Prop) (s : PoolSystem BS TI) : Prop :=
  s.Started ∧ AcceptingTxIndex.accepts given s.txIndex

/-- Every batch created is being indexed or is indexed. -/
structure Indexed (given : Batch → Prop) (s : PoolSystem BS TI) (log : List Batch) : Prop where
  accepts : AcceptingTxIndex.accepts given s.txIndex
  made : ∀ b, some (.saved b) ∈ s.creating → b ∈ log
  indexed : ∀ b ∈ log, some (.saved b) ∈ s.creating ∨
    ∀ h ∈ b.txHashes, TxIndex.hasTx s.txIndex h = true

variable {given : Batch → Prop} {s : PoolSystem BS TI} {log : List Batch}

omit [BatchStore BS] in
/-- How a step keeps the batches indexed: the index grows, a batch that was being indexed
still is or is indexed, and so it is with the new ones. -/
theorem Indexed.grown (hi : Indexed given s log) {s' : PoolSystem BS TI}
    {indexed batches : List Batch} (hgrown : Grown given s.txIndex s'.txIndex indexed)
    (hmade : ∀ b, some (.saved b) ∈ s'.creating → some (.saved b) ∈ s.creating ∨ b ∈ batches)
    (hsaved : ∀ b, some (.saved b) ∈ s.creating → some (.saved b) ∈ s'.creating ∨
      ∀ h ∈ b.txHashes, TxIndex.hasTx s'.txIndex h = true)
    (hnew : ∀ b ∈ batches, some (.saved b) ∈ s'.creating ∨
      ∀ h ∈ b.txHashes, TxIndex.hasTx s'.txIndex h = true) :
    Indexed given s' (log ++ batches) where
  accepts := hgrown.accepts
  made b hb := List.mem_append.mpr ((hmade b hb).imp_left (hi.made b))
  indexed b hb := by
    rcases List.mem_append.mp hb with hold | hin
    · rcases hi.indexed b hold with hc | hall
      · exact hsaved b hc
      · exact .inr fun h hh => hgrown.keeps (hall h hh)
    · exact hnew b hin

omit [BatchStore BS] in
theorem Indexed.mono (hi : Indexed given s log) {s' : PoolSystem BS TI}
    (hindex : s'.txIndex = s.txIndex) (hsame : ∀ b, some (.saved b) ∈ s'.creating ↔
      some (.saved b) ∈ s.creating) : Indexed given s' (log ++ []) := by
  have hgrown : Grown given s.txIndex s'.txIndex [] := by
    rw [hindex]
    exact .refl hi.accepts
  exact hi.grown hgrown (fun b hb => .inl ((hsame b).mp hb))
    (fun b hb => .inl ((hsame b).mpr hb)) fun b hb => absurd hb (by simp)

theorem Indexed.withoutLast (hi : Indexed given s log) (w : Worker) (now : Int)
    (hgiven : ∀ b ∈ log ++ (s.stopRemoved w now).1, given b) :
    Indexed given (s.withoutLast w now) (log ++ (s.stopRemoved w now).1) := by
  obtain ⟨hgrown, hlast⟩ := stopRemoved_grown hi.accepts w now
    (fun b hb => hgiven b (List.mem_append_left _ (hi.made b hb)))
    fun b hb => hgiven b (List.mem_append_right _ hb)
  refine hi.grown hgrown (fun b hb => .inl (List.mem_of_mem_dropLast hb)) (fun b hb => ?_)
    fun b hb => .inr (hgrown.indexes b hb)
  rcases mem_dropLast_or_getLast? hb with hrest | hc
  · exact .inl hrest
  · exact .inr (hlast b hc)

theorem Indexed.step (hi : Indexed given s log) (e : PoolEvent × Int)
    (hgiven : ∀ b ∈ log ++ (s.step e).2, given b) :
    Indexed given (s.step e).1 (log ++ (s.step e).2) := by
  obtain ⟨e, now⟩ := e
  cases e with
  | addTx tx => exact hi.mono rfl fun _ => .rfl
  | scaleUp => exact hi.mono rfl fun b => by simp [PoolSystem.step]
  | scaleDown =>
    rcases s.scaleDown_cases now with he | ⟨w, -, he⟩
    · rw [PoolSystem.step, he]
      exact hi.mono rfl fun _ => .rfl
    · rw [PoolSystem.step, he] at hgiven ⊢
      exact hi.withoutLast w now hgiven
  | pop idx =>
    dsimp only [PoolSystem.step]
    split
    · next w hw hc =>
        refine hi.mono rfl fun b => ⟨fun hb => ?_, fun hb => ?_⟩
        · exact (List.mem_or_eq_of_mem_set hb).resolve_right (by simp)
        · exact (mem_set_or_eq hb hc).resolve_right (by simp)
    · exact hi.mono rfl fun _ => .rfl
  | save idx =>
    dsimp only [PoolSystem.step]
    split
    · next w txs hw hc =>
        refine hi.grown (.refl hi.accepts) (fun b hb => ?_) (fun b hb => .inl ?_)
          fun b hb => .inl ?_
        · refine (List.mem_or_eq_of_mem_set hb).imp_right fun heq => ?_
          obtain ⟨b', hb', heq⟩ := Option.map_eq_some_iff.mp heq.symm
          cases heq
          exact Option.mem_toList.mpr hb'
        · exact (mem_set_or_eq hb hc).resolve_right (by simp)
        · have hlt := (List.getElem?_eq_some_iff.mp hc).1
          rw [Option.mem_toList.mp hb]
          exact List.mem_set hlt _
    · exact hi.mono rfl fun _ => .rfl
  | index idx =>
    dsimp only [PoolSystem.step]
    split
    · next w batch hw hc =>
        have hbatch := hi.made batch (List.mem_of_getElem? hc)
        have hgrown := Grown.addBatch hi.accepts (hgiven batch (List.mem_append_left _ hbatch))
        refine hi.grown hgrown (fun b hb => .inl ?_) (fun b hb => ?_)
          fun b hb => absurd hb (by simp)
        · exact (List.mem_or_eq_of_mem_set hb).resolve_right (by simp)
        · rcases mem_set_or_eq hb hc with hrest | heq
          · exact .inl hrest
          · cases heq
            exact .inr (hgrown.indexes batch (List.mem_singleton_self _))
    · exact hi.mono rfl fun _ => .rfl
  | setTxValidator | setRound | updateQuorum | recordAck | removeTimedOutAcks =>
    exact hi.mono rfl fun _ => .rfl

omit [BatchStore BS] in
theorem held_eq_zero (hs : s.Sound) (hi : Indexed given s log) {tx : Transaction} {w : Worker}
    (hw : s.pool.workers[s.pool.route tx]? = some w)
    (hset : w.pendingSet.has tx.hash = false)
    (hidx : TxIndex.hasTx s.txIndex tx.hash = false) (hclear : s.Clear tx) :
    s.held log tx.hash = 0 := by
  have hown : tx.hash ∉ w.pendingHashes := by
    intro hmem
    rw [((hs.queued w (List.mem_of_getElem? hw)).has_iff _).mpr hmem] at hset
    cases hset
  have hpending : s.pool.pendingHashes.count tx.hash = 0 := by
    unfold Pool.pendingHashes
    rw [count_flatMap_eraseIdx Worker.pendingHashes hw, List.count_eq_zero.mpr hclear.2,
      List.count_eq_zero.mpr hown]
  have htaken : (s.creating.flatMap BatchCreation.taken).count tx.hash = 0 :=
    List.count_eq_zero.mpr fun hmem => hclear.1 (s.taken_subset_hashes hmem)
  have hlog : (log.flatMap Batch.txHashes).count tx.hash = 0 := by
    refine List.count_eq_zero.mpr fun hmem => ?_
    obtain ⟨b, hb, hmem⟩ := List.mem_flatMap.mp hmem
    rcases hi.indexed b hb with hc | hall
    · exact hclear.1 (List.mem_flatMap.mpr ⟨_, hc, hmem⟩)
    · rw [hall _ hmem] at hidx
      cases hidx
  rw [held, hpending, htaken, hlog]

omit [BatchStore BS] in
theorem held_addTx_le_one (hs : s.Sound) (hi : Indexed given s log) (hone : ∀ h, s.held log h ≤ 1)
    {tx : Transaction} (hclear : TxIndex.hasTx s.txIndex tx.hash = true ∨ s.Clear tx)
    (h : Hash) :
    { s with pool := (s.pool.addTx s.txIndex tx).2 }.held (log ++ []) h ≤ 1 := by
  rw [List.append_nil]
  rcases s.pool.addTx_cases s.txIndex tx with he | ⟨w, hw, he⟩
  · rw [he]
    exact hone h
  · have hcount := s.pool.count_addTx s.txIndex tx h
    rcases w.addTx_cases s.txIndex s.pool.txValidator tx with hsame | ⟨_, hset, hidx, -⟩
    · obtain ⟨hlt, hget⟩ := List.getElem?_eq_some_iff.mp hw
      have hback : s.pool.workers.set (s.pool.route tx) w = s.pool.workers := by
        rw [← hget, List.set_getElem_self]
      rw [he, hsame, hback]
      exact hone h
    · have hnone : s.held log tx.hash = 0 :=
        held_eq_zero hs hi hw hset hidx (hclear.resolve_left (by simp [hidx]))
      have hbefore := hone h
      by_cases heq : h = tx.hash
      · subst heq
        rw [List.count_singleton_self] at hcount
        simp only [held] at hnone ⊢
        omega
      · rw [List.count_singleton, beq_false_of_ne (Ne.symm heq)] at hcount
        simp only [held, Bool.false_eq_true, if_false] at hbefore hcount ⊢
        omega

/-- Every hash has one place at most. -/
structure Distinct (given : Batch → Prop) (s : PoolSystem BS TI) (log : List Batch) : Prop where
  sound : s.Sound
  indexed : Indexed given s log
  once : ∀ h, s.held log h ≤ 1

omit [BatchStore BS] in
theorem StartedOpen.distinct (h : StartedOpen given s) : Distinct given s [] where
  sound := h.1.sound
  indexed := by
    refine ⟨h.2, fun b hb => ?_, fun b hb => absurd hb (by simp)⟩
    obtain ⟨_, _, _, _, -, hcreating⟩ := h.1
    rw [hcreating] at hb
    exact absurd (List.eq_of_mem_replicate hb) (by simp)
  once d := by
    obtain ⟨cfg, validatorID, quorum, txValidator, hpool, hcreating⟩ := h.1
    rw [held, hcreating, taken_replicate, hpool, Pool.pendingHashes_start]
    exact Nat.zero_le 1

theorem Distinct.step (hd : Distinct given s log) {e : PoolEvent × Int}
    (hok : AddsClear s log e) (hgiven : ∀ b ∈ log ++ (s.step e).2, given b) :
    Distinct given (s.step e).1 (log ++ (s.step e).2) where
  sound := hd.sound.step e
  indexed := hd.indexed.step e hgiven
  once d := by
    obtain ⟨e, now⟩ := e
    by_cases hadd : ∃ tx, e = .addTx tx
    · obtain ⟨tx, rfl⟩ := hadd
      exact held_addTx_le_one hd.sound hd.indexed hd.once hok d
    · exact (held_step hd.sound (fun tx he => hadd ⟨tx, he⟩) now d).trans (hd.once d)

/-- In a run in which no transaction is added while a batch with it is being made, nor
while a worker it is no longer routed to has it pending, no hash is in the batches created
twice, nor in the queues. -/
theorem transactions_once (h : Run.Reach (StartedOpen (· ∈ log)) step AddsClear s log) :
    (log.flatMap Batch.txHashes).Nodup ∧ s.pool.pendingHashes.Nodup := by
  have hd := h.invariant
    (I := fun s made => (∀ b ∈ made, b ∈ log) → Distinct (· ∈ log) s made)
    (fun _ hs _ => hs.distinct)
    fun _ _ _ hd hok hgiven =>
      (hd fun b hb => hgiven b (List.mem_append_left _ hb)).step hok hgiven
  have honce := (hd fun _ => id).once
  simp only [held] at honce
  refine ⟨List.nodup_iff_count_le_one.mpr fun d => ?_,
    List.nodup_iff_count_le_one.mpr fun d => ?_⟩
  · have := honce d
    omega
  · have := honce d
    omega

end PoolSystem

end

section

attribute [local instance] idealCrypto

def addWhileBatching : List PoolEvent :=
  [.addTx [1], .pop 0, .addTx [1], .save 0, .index 0, .pop 0, .save 0, .index 0]

def addAfterScaling : List PoolEvent := [.addTx longTx, .scaleUp, .addTx longTx]

/-- The first run creates two batches with one transaction; the second leaves one pending
in two workers. -/
theorem transaction_taken_twice :
    (∃ (s : IdealPool) (log : List Batch),
      Run.Reach (PoolSystem.StartedOpen (· ∈ log)) PoolSystem.step (fun _ _ _ => True) s log ∧
      ∃ b₁ ∈ log, ∃ b₂ ∈ log, b₁ ≠ b₂ ∧
        Transaction.hash [1] ∈ b₁.txHashes ∧ Transaction.hash [1] ∈ b₂.txHashes) ∧
    ∃ (s : IdealPool) (log : List Batch),
      Run.Reach (PoolSystem.StartedOpen (· ∈ log)) PoolSystem.step (fun _ _ _ => True) s log ∧
      s.pool.workers.map Worker.pendingHashes = [[longTx.hash], [longTx.hash]] := by
  have hok : ∀ events, Run.AllOk PoolSystem.step (fun _ _ _ => True) (idealPool 10) []
      (idealPoolRun events) := fun events => Run.AllOk.of_forall (fun _ _ _ => trivial) _ _ _
  have hstart : ∀ log : List Batch, PoolSystem.StartedOpen (· ∈ log) (idealPool 10) :=
    fun _ => ⟨started_idealPool 10, rfl⟩
  refine ⟨⟨_, _, reach_idealPoolExec (hstart _) (hok addWhileBatching), ?_⟩,
    _, _, reach_idealPoolExec (hstart _) (hok addAfterScaling), by decide +kernel⟩
  have hlog : (idealPoolExec 10 addWhileBatching).2 =
      [Batch.new 0 0 0 [[1]] 4, Batch.new 0 0 0 [[1]] 7] := by decide +kernel
  rw [hlog]
  exact ⟨_, List.mem_cons_self, _, List.mem_cons_of_mem _ List.mem_cons_self,
    by decide +kernel, by decide +kernel, by decide +kernel⟩

/-- One transaction is batched, while another waits in the second worker. -/
def addOneAfterOther : List PoolEvent :=
  [.addTx [1], .pop 0, .scaleUp, .addTx longTx, .save 0, .index 0, .addTx [1], .scaleDown]

theorem transactions_once_scaled :
    ∃ (s : IdealPool) (log : List Batch),
      Run.Reach (PoolSystem.StartedOpen (· ∈ log)) PoolSystem.step PoolSystem.AddsClear s log ∧
      log.length = 1 ∧ s.pool.pendingHashes = [longTx.hash] ∧
      (log.flatMap Batch.txHashes).Nodup ∧ s.pool.pendingHashes.Nodup := by
  have hstart : ∀ log : List Batch, PoolSystem.StartedOpen (· ∈ log) (idealPool 10) :=
    fun _ => ⟨started_idealPool 10, rfl⟩
  have hok : Run.AllOk PoolSystem.step PoolSystem.AddsClear (idealPool 10) []
      (idealPoolRun addOneAfterOther) := by decide +kernel
  have hrun := reach_idealPoolExec (hstart (idealPoolExec 10 addOneAfterOther).2) hok
  have hends : (idealPoolExec 10 addOneAfterOther).2.length = 1 ∧
      (idealPoolExec 10 addOneAfterOther).1.pool.pendingHashes = [longTx.hash] := by
    decide +kernel
  generalize idealPoolExec 10 addOneAfterOther = run at hrun hends
  exact ⟨run.1, run.2, hrun, hends.1, hends.2, PoolSystem.transactions_once hrun⟩

end

end DagMempool
