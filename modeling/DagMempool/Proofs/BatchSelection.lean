import DagMempool.Proofs.PendingPool
import DagMempool.Worker.Ideal

/-!
# Which transactions a batch is made of

Ranked, what is pending is in the order of the heap: by priority, and by
sequence number among equals. A batch is a prefix of it, cut by count and by bytes, and
the rest of the queue is what stays.
-/

namespace DagMempool

open scoped List

/-- What a batch is to be made of: as many entries as a batch may have, and of those, where
bytes are limited, the longest prefix within the limit, but one entry at least. -/
def WorkerConfig.selected (cfg : WorkerConfig) (l : List PendingEntry) : List PendingEntry :=
  if 0 < cfg.batchBytes then
    Prefix.longest PendingEntry.size cfg.batchBytes.toInt (l.take cfg.batchSize)
  else l.take cfg.batchSize

namespace WorkerConfig

theorem selected_prefix (cfg : WorkerConfig) (l : List PendingEntry) : cfg.selected l <+: l := by
  unfold selected
  split
  · exact (Prefix.longest_prefix _ _ _).trans (List.take_prefix _ _)
  · exact List.take_prefix _ _

theorem selected_ne_nil {cfg : WorkerConfig} {l : List PendingEntry} (hsize : 1 ≤ cfg.batchSize)
    (hl : l ≠ []) : cfg.selected l ≠ [] := by
  obtain ⟨n, hn⟩ : ∃ n, cfg.batchSize = n + 1 := ⟨cfg.batchSize - 1, by omega⟩
  cases l with
  | nil => exact absurd rfl hl
  | cons e l =>
    unfold selected
    rw [hn, List.take_succ_cons]
    split
    · rw [Prefix.longest_cons]
      simp
    · simp

end WorkerConfig

/-- The order in which transactions are to be taken: by priority, and by number of admission
among equals. -/
def PendingEntry.InOrder (a b : PendingEntry) : Prop :=
  b.priority < a.priority ∨ a.priority = b.priority ∧ a.sequence ≤ b.sequence

theorem PendingEntry.inOrder_iff {a b : PendingEntry} : a.InOrder b ↔ b.less a = false := by
  rw [InOrder, less_eq_false, Int64.lt_iff_toInt_lt, ← Int64.toInt_inj, UInt64.le_iff_toNat_le]
  omega

namespace Worker

/-- What is pending, in the order in which it is taken. -/
def ranked (w : Worker) : List PendingEntry := Heap.sorted PendingEntry.less w.pending

theorem ranked_perm (w : Worker) : w.ranked ~ w.pending.toList := Heap.sorted_perm _

theorem length_ranked (w : Worker) : w.ranked.length = w.pending.size := by
  rw [w.ranked_perm.length_eq, Array.length_toList]

theorem total_ranked (w : Worker) : Prefix.total PendingEntry.size w.ranked = w.pendingTotal :=
  Prefix.total_of_perm _ w.ranked_perm

variable [Crypto]

/-! ## The loop

The loop pops while the counter of bytes allows. As long as the bytes do not wrap, its test is one
on the sum of what was taken, and what it takes is a prefix of the queue; the first entry is taken
without a test. -/

/-- What the loop goes on to take of the queue when it has taken something. -/
def further (cfg : WorkerConfig) (used : Nat) (l : List PendingEntry) : List PendingEntry :=
  if 0 < cfg.batchBytes then Prefix.within PendingEntry.size cfg.batchBytes.toInt used l else l

omit [Crypto] in
theorem further_nil (cfg : WorkerConfig) (used : Nat) : further cfg used [] = [] := by
  unfold further
  split <;> rfl

omit [Crypto] in
theorem further_cons (cfg : WorkerConfig) (used : Nat) (entry : PendingEntry)
    (l : List PendingEntry) :
    further cfg used (entry :: l) =
      if 0 < cfg.batchBytes ∧ ¬ ((used + entry.size : Nat) : Int) ≤ cfg.batchBytes.toInt then []
      else entry :: further cfg (used + entry.size) l := by
  unfold further
  by_cases hlimited : 0 < cfg.batchBytes
  · rw [if_pos hlimited, if_pos hlimited, Prefix.within]
    by_cases hfits : ((used + entry.size : Nat) : Int) ≤ cfg.batchBytes.toInt
    · rw [if_pos hfits, if_neg fun hstop => hstop.2 hfits]
    · rw [if_neg hfits, if_pos ⟨hlimited, hfits⟩]
  · rw [if_neg hlimited, if_neg hlimited, if_neg fun hstop => hlimited hstop.1]

omit [Crypto] in
theorem overLimit_iff {cfg : WorkerConfig} {txs : List Transaction} (hpos : 0 < txs.length)
    {used : Nat} {entry : PendingEntry}
    (hbytes : 0 < cfg.batchBytes → used + entry.size < 2 ^ 63) :
    (0 < cfg.batchBytes ∧ 0 < txs.length ∧
        cfg.batchBytes < Int64.ofNat used + Int64.ofNat entry.tx.size) ↔
      0 < cfg.batchBytes ∧ ¬ ((used + entry.size : Nat) : Int) ≤ cfg.batchBytes.toInt := by
  refine and_congr_right fun hlimited => ?_
  rw [show entry.tx.size = entry.size from rfl, Prefix.lt_ofNat_add_iff (hbytes hlimited)]
  simp [hpos]

theorem popBatch_of_pos (maxCount : Nat) {w : Worker} (txs : List Transaction) (used : Nat)
    (hpos : 0 < txs.length) (hbytes : 0 < w.cfg.batchBytes → used + w.pendingTotal < 2 ^ 63) :
    (w.popBatch maxCount txs (Int64.ofNat used)).1 =
        txs ++ (further w.cfg used (w.ranked.take maxCount)).map (·.tx) ∧
      (w.popBatch maxCount txs (Int64.ofNat used)).2.2.ranked =
        w.ranked.drop (further w.cfg used (w.ranked.take maxCount)).length := by
  induction maxCount generalizing w txs used with
  | zero =>
    rw [List.take_zero, further_nil]
    exact ⟨(List.append_nil txs).symm, rfl⟩
  | succ maxCount ih =>
    rw [popBatch]
    cases hpop : Heap.pop PendingEntry.less w.pending with
    | none =>
      have hempty : w.ranked = [] := Heap.sorted_of_empty (Heap.pop_eq_none_iff.mp hpop)
      rw [hempty, List.take_nil, further_nil]
      exact ⟨(List.append_nil txs).symm, rfl⟩
    | some popped =>
      obtain ⟨entry, rest⟩ := popped
      have hranked : w.ranked = entry :: Heap.sorted PendingEntry.less rest :=
        Heap.sorted_of_pop hpop
      have htotal := pendingTotal_pop hpop
      have hrest := ih
        (w := { w with pending := rest, pendingSet := w.pendingSet.del entry.tx.hash })
        (txs ++ [entry.tx]) (used + entry.size) (by simp)
        (fun hlimited => by
          have := hbytes hlimited
          show used + entry.size + Prefix.total _ rest.toList < 2 ^ 63
          omega)
      rw [hranked, List.take_succ_cons, further_cons]
      simp only [overLimit_iff hpos fun hlimited => show used + entry.size < 2 ^ 63 by
        have := hbytes hlimited
        omega]
      split
      · exact ⟨(List.append_nil txs).symm, hranked⟩
      · rw [show entry.tx.size = entry.size from rfl, ← Int64.ofNat_add]
        refine ⟨hrest.1.trans ?_, hrest.2⟩
        rw [List.append_assoc, List.map_cons]
        rfl

theorem popBatch_eq {w : Worker} (hbytes : 0 < w.cfg.batchBytes → w.pendingTotal < 2 ^ 63) :
    (w.popBatch (min w.cfg.batchSize w.pending.size) [] 0).1 =
        (w.cfg.selected w.ranked).map (·.tx) ∧
      (w.popBatch (min w.cfg.batchSize w.pending.size) [] 0).2.2.ranked =
        w.ranked.drop (w.cfg.selected w.ranked).length := by
  have htake : w.ranked.take (min w.cfg.batchSize w.pending.size) =
      w.ranked.take w.cfg.batchSize := by
    rw [← length_ranked, List.take_eq_take_iff]
    omega
  rw [WorkerConfig.selected, ← htake]
  cases hcount : min w.cfg.batchSize w.pending.size with
  | zero =>
    rw [List.take_zero]
    have hnone : (if 0 < w.cfg.batchBytes then
        Prefix.longest PendingEntry.size w.cfg.batchBytes.toInt [] else []) = [] := by
      split <;> rfl
    rw [hnone]
    exact ⟨rfl, rfl⟩
  | succ maxCount =>
    have hpop := Heap.pop_eq PendingEntry.less (h := w.pending) (by omega)
    generalize Array.pop _ = rest at hpop
    generalize w.pending[0] = entry at hpop
    have hranked : w.ranked = entry :: Heap.sorted PendingEntry.less rest :=
      Heap.sorted_of_pop hpop
    have htotal := pendingTotal_pop hpop
    have hrest := popBatch_of_pos maxCount
      (w := { w with pending := rest, pendingSet := w.pendingSet.del entry.tx.hash })
      [entry.tx] entry.size (by simp)
      (fun hlimited => by
        have := hbytes hlimited
        show entry.size + Prefix.total _ rest.toList < 2 ^ 63
        omega)
    have hselected : (if 0 < w.cfg.batchBytes then
        Prefix.longest PendingEntry.size w.cfg.batchBytes.toInt
          (entry :: (Heap.sorted PendingEntry.less rest).take maxCount)
        else entry :: (Heap.sorted PendingEntry.less rest).take maxCount) =
        entry :: further w.cfg entry.size
          ((Heap.sorted PendingEntry.less rest).take maxCount) := by
      unfold further
      split
      · exact Prefix.longest_cons _ _ _ _
      · rfl
    rw [popBatch, hpop, hranked, List.take_succ_cons, hselected]
    dsimp only
    rw [if_neg (by simp), Int64.zero_add]
    exact hrest

theorem beginBatch_eq {w : Worker} (hbytes : 0 < w.cfg.batchBytes → w.pendingTotal < 2 ^ 63)
    (hsize : w.pending.size ≠ 0) :
    w.beginBatch.1 = some ((w.cfg.selected w.ranked).map (·.tx)) ∧
      w.beginBatch.2.ranked = w.ranked.drop (w.cfg.selected w.ranked).length := by
  obtain ⟨htxs, hranked⟩ := popBatch_eq hbytes
  rw [beginBatch, if_neg hsize]
  exact ⟨congrArg some htxs, hranked⟩

/-! ## Whole calls

`tryCreateBatch` takes what is selected of the queue and leaves the rest of it as the queue.
Called again and again it goes through all of it. -/

variable {BS TI : Type} [BatchStore BS] [TxIndex TI]

theorem tryCreateBatch_selected {w : Worker}
    (hbytes : 0 < w.cfg.batchBytes → w.pendingTotal < 2 ^ 63) {batchStore : BS} {txIndex : TI}
    {now : Int} {batch : Batch}
    (h : (w.tryCreateBatch batchStore txIndex now).1 = some batch) :
    batch.transactions = (w.cfg.selected w.ranked).map (·.tx) ∧
      (w.tryCreateBatch batchStore txIndex now).2.1.ranked =
        w.ranked.drop (w.cfg.selected w.ranked).length := by
  rw [tryCreateBatch_eq] at h ⊢
  by_cases hsize : w.pending.size = 0
  · rw [beginBatch, if_pos hsize] at h
    exact absurd h (by simp [finishBatch])
  · obtain ⟨htxs, hranked⟩ := beginBatch_eq hbytes hsize
    rw [htxs] at h ⊢
    rw [Option.map_some, finishBatch, saveTxs] at h ⊢
    generalize BatchStore.saveBatch batchStore _ = saved at h ⊢
    obtain ⟨answer, batchStore'⟩ := saved
    cases answer with
    | error cause => cases h
    | ok =>
      refine ⟨?_, hranked⟩
      rw [← Option.some.inj h]
      rfl

theorem tryCreateBatch_isSome [AcceptingBatchStore BS] {w : Worker} (hsize : w.pending.size ≠ 0)
    {batchStore : BS} (hstore : AcceptingBatchStore.accepts batchStore) (txIndex : TI) (now : Int) :
    (w.tryCreateBatch batchStore txIndex now).1.isSome ∧
      AcceptingBatchStore.accepts (w.tryCreateBatch batchStore txIndex now).2.2.1 := by
  rw [tryCreateBatch, if_neg hsize]
  dsimp only
  rw [AcceptingBatchStore.save_ok _ hstore]
  exact ⟨rfl, AcceptingBatchStore.accepts_save _ hstore⟩

/-- `tryCreateBatch` again and again, at the times given. -/
def createBatches (w : Worker) (batchStore : BS) (txIndex : TI) :
    List Int → List Batch × Worker × BS × TI
  | [] => ([], w, batchStore, txIndex)
  | now :: nows =>
    let made := w.tryCreateBatch batchStore txIndex now
    let rest := made.2.1.createBatches made.2.2.1 made.2.2.2 nows
    (made.1.toList ++ rest.1, rest.2)

theorem cfg_tryCreateBatch (w : Worker) (batchStore : BS) (txIndex : TI) (now : Int) :
    (w.tryCreateBatch batchStore txIndex now).2.1.cfg = w.cfg := by
  obtain ⟨w', ⟨⟨_, _, _, _, rfl⟩, -, -⟩, ⟨-, hw⟩ | ⟨batch, -, -, hw⟩⟩ :=
    w.tryCreateBatch_cases batchStore txIndex now
  · rw [hw]
  · rw [hw]

theorem createBatches_drain [AcceptingBatchStore BS] (nows : List Int) {w : Worker}
    (hbytes : w.pendingTotal < 2 ^ 63) (hsize : 1 ≤ w.cfg.batchSize) {batchStore : BS}
    (hstore : AcceptingBatchStore.accepts batchStore) (txIndex : TI) :
    ∃ k, min nows.length w.ranked.length ≤ k ∧
      (w.createBatches batchStore txIndex nows).1.flatMap (·.transactions) =
        (w.ranked.take k).map (·.tx) := by
  induction nows generalizing w batchStore txIndex with
  | nil => exact ⟨0, by simp, by simp [createBatches]⟩
  | cons now nows ih =>
    by_cases hempty : w.pending.size = 0
    · have hnothing : w.tryCreateBatch batchStore txIndex now =
          (none, w, batchStore, txIndex) := by
        rw [tryCreateBatch, if_pos hempty]
      obtain ⟨k, -, htxs⟩ := ih hbytes hsize hstore txIndex
      refine ⟨k, by rw [length_ranked]; omega, ?_⟩
      rw [createBatches, hnothing]
      exact htxs
    · obtain ⟨hsome, hstore'⟩ := tryCreateBatch_isSome hempty hstore txIndex now
      obtain ⟨batch, hbatch⟩ := Option.isSome_iff_exists.mp hsome
      obtain ⟨htxs, hranked⟩ := tryCreateBatch_selected (fun _ => hbytes) hbatch
      have hne : w.cfg.selected w.ranked ≠ [] := by
        refine WorkerConfig.selected_ne_nil hsize fun hnil => hempty ?_
        rw [← length_ranked, hnil]
        rfl
      have hpos := List.length_pos_iff.mpr hne
      have hpre : w.cfg.selected w.ranked =
          w.ranked.take (w.cfg.selected w.ranked).length :=
        List.prefix_iff_eq_take.mp (w.cfg.selected_prefix w.ranked)
      have hbytes' : (w.tryCreateBatch batchStore txIndex now).2.1.pendingTotal < 2 ^ 63 := by
        rw [← total_ranked, hranked]
        rw [← total_ranked] at hbytes
        exact Nat.lt_of_le_of_lt
          (Prefix.total_le_of_sublist _ (List.drop_sublist _ _)) hbytes
      obtain ⟨k, hk, hrest⟩ := ih hbytes'
        (by rw [cfg_tryCreateBatch]; exact hsize) hstore'
        (w.tryCreateBatch batchStore txIndex now).2.2.2
      rw [hranked] at hk hrest
      refine ⟨(w.cfg.selected w.ranked).length + k, ?_, ?_⟩
      · rw [List.length_drop] at hk
        rw [List.length_cons]
        omega
      · rw [createBatches, hbatch]
        dsimp only [Option.toList_some]
        rw [List.flatMap_append, List.flatMap_singleton, hrest, htxs, ← List.map_append,
          List.take_add, ← hpre]

/-! ## Every reachable pool

The heap orders entries by priority and number. The numbers of a pool are distinct, so this is one
order, and equals are in it as they were admitted. -/

variable {w : Worker} {log : List PendingEntry}

omit [Crypto] in
theorem Heaped.ranked_inOrder (h : w.Heaped) : w.ranked.Pairwise PendingEntry.InOrder :=
  (Heap.sorted_pairwise PendingEntry.weakOrder_less h).imp PendingEntry.inOrder_iff.mpr

theorem Pooled.eq_ranked (h : w.Pooled) (hnodup : (w.pending.toList.map (·.sequence)).Nodup)
    {l : List PendingEntry} (hperm : l ~ w.pending.toList)
    (hsorted : l.Pairwise PendingEntry.InOrder) : l = w.ranked := by
  refine Heap.eq_sorted PendingEntry.weakOrder_less h.ordered hperm
    (hsorted.imp PendingEntry.inOrder_iff.mp) fun a ha b hb hab hba => ?_
  rw [PendingEntry.less_eq_false] at hab hba
  refine List.inj_on_of_nodup_map hnodup (hperm.mem_iff.mp ha) (hperm.mem_iff.mp hb) ?_
  rw [← UInt64.toNat_inj]
  omega

theorem Pooled.ranked_sublist (h : w.Pooled) (hseq : w.Sequenced log) (hlog : log.length < 2 ^ 64)
    (priority : Int64) : (w.ranked.filter fun e => e.priority = priority).Sublist log := by
  have hdistinct : (w.ranked.map (·.sequence)).Nodup :=
    (w.ranked_perm.map _).nodup_iff.mpr (hseq.nodup hlog)
  have hranked : w.ranked.Pairwise fun a b => a.InOrder b ∧ a.sequence ≠ b.sequence :=
    h.ordered.ranked_inOrder.and (List.pairwise_map.mp hdistinct)
  refine List.sublist_of_subperm_of_pairwise (r := fun a b => a.sequence < b.sequence) ?_ ?_
    (hseq.increasing hlog)
  · exact List.filter_sublist.subperm.trans (w.ranked_perm.subperm.trans hseq.pending)
  · rw [List.pairwise_filter]
    refine hranked.imp fun {a b} hab ha hb => ?_
    simp only [decide_eq_true_eq] at ha hb
    rcases hab.1 with hprio | ⟨-, hle⟩
    · rw [ha, hb] at hprio
      exact absurd hprio (by simp)
    · exact UInt64.lt_of_le_of_ne hle hab.2

variable (BS TI) in
/-- What is pending is sorted by priority and by admission, and a batch is the longest prefix
of that within the limits of the configuration, one entry at least; the rest stays. Calls
that follow each other drain it in order, and equals leave as they came. -/
theorem batch_takes_front [AcceptingBatchStore BS]
    (hreach : PendingReach (fun w _ e => w.Addressable e) w log) (hsize : 1 ≤ w.cfg.batchSize) :
    ∃ l : List PendingEntry, l ~ w.pending.toList ∧ l.Pairwise PendingEntry.InOrder ∧
      (log.length < 2 ^ 64 →
        (∀ l', l' ~ w.pending.toList → l'.Pairwise PendingEntry.InOrder → l' = l) ∧
          ∀ priority, (l.filter fun e => e.priority = priority).Sublist log) ∧
      (∀ (batchStore : BS) (txIndex : TI) now batch,
        (w.tryCreateBatch batchStore txIndex now).1 = some batch →
          batch.transactions = (w.cfg.selected l).map (·.tx) ∧
          (w.tryCreateBatch batchStore txIndex now).2.1.pending.toList ~
            l.drop (w.cfg.selected l).length) ∧
      ∀ (batchStore : BS) (txIndex : TI), AcceptingBatchStore.accepts batchStore →
        (∀ now, l ≠ [] → (w.tryCreateBatch batchStore txIndex now).1.isSome) ∧
        ∀ nows : List Int,
          (w.createBatches batchStore txIndex nows).1.flatMap (·.transactions) <+: l.map (·.tx) ∧
          (l.length ≤ nows.length →
            (w.createBatches batchStore txIndex nows).1.flatMap (·.transactions) =
              l.map (·.tx)) := by
  obtain ⟨hpooled, hin, hseq⟩ := pooled_of_reach hreach
  refine ⟨w.ranked, w.ranked_perm, hpooled.ordered.ranked_inOrder,
    fun hlog => ⟨fun l' hperm hsorted => hpooled.eq_ranked (hseq.nodup hlog) hperm hsorted,
      hpooled.ranked_sublist hseq hlog⟩,
    fun batchStore txIndex now batch hbatch => ?_, fun batchStore txIndex hstore =>
    ⟨fun now hne => ?_, fun nows => ?_⟩⟩
  · obtain ⟨htxs, hranked⟩ := tryCreateBatch_selected (fun _ => hin.lt) hbatch
    refine ⟨htxs, ?_⟩
    rw [← hranked]
    exact (ranked_perm _).symm
  · refine (tryCreateBatch_isSome (fun hempty => hne ?_) hstore txIndex now).1
    rw [← List.length_eq_zero_iff, length_ranked]
    exact hempty
  · obtain ⟨k, hk, htxs⟩ := createBatches_drain nows hin.lt hsize hstore txIndex
    rw [htxs]
    refine ⟨(List.take_prefix k w.ranked).map _, fun hall => ?_⟩
    rw [List.take_of_length_le (by omega)]

end Worker

section

attribute [local instance] idealCrypto

/-- Two of priority one go before the one that came first, in the order they came. -/
theorem batch_takes_front_three :
    ∃ w log, Worker.PendingReach (fun w _ e => w.Addressable e) w log ∧ w.pending.size = 3 ∧
      ∃ l : List PendingEntry, l ~ w.pending.toList ∧ l.Pairwise PendingEntry.InOrder ∧
        (w.cfg.selected l).map (·.tx) = [[1], [2]] := by
  have hreach : Worker.PendingReach (fun w _ e => w.Addressable e) _ _ :=
    Run.Reach.of_exec ⟨0, 0, { tightConfig with batchSize := 2, maxPendingTxs := 3 }, 3, rfl⟩
      (show Run.AllOk _ _ _ _ [.addTx [0] 0 false, .addTx [1] 1 false, .addTx [2] 1 false]
        by decide)
  obtain ⟨l, hperm, hsorted, -, hbatch, -⟩ :=
    Worker.batch_takes_front MemoryBatchStore MemoryTxIndex hreach (by decide)
  refine ⟨_, _, hreach, by decide, l, hperm, hsorted, ?_⟩
  rw [← (hbatch .new .new 1 _ rfl).1]
  decide

end

end DagMempool
