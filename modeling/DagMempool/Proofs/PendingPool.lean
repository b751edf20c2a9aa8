import DagMempool.Lib.HeapOrder
import DagMempool.Lib.Prefix
import DagMempool.Proofs.WorkerQueue
import DagMempool.Types.Ideal

/-!
# The pending pool of a worker

The heap, the set of hashes and the byte counter say the same of what is pending, and
the limits of the configuration hold, after any sequence of locked sections.

Two things are said up to the width of a machine word. Sequence numbers are handed out
one after the other, so they are distinct until there have been `2 ^ 64` of them. And
the counter is a sum in `int64`: a transaction is let in when the counter with its size
is not above the limit, which means what it says as long as the sum does not wrap. What
is pending is in memory, with the transaction that is to be added, so that these bytes
together are fewer than a process can address.
-/

namespace DagMempool

open scoped List

def PendingEntry.size (e : PendingEntry) : Nat := e.tx.size

namespace Worker

variable [Crypto]

/-- The bytes that are pending. -/
def pendingTotal (w : Worker) : Nat := Prefix.total PendingEntry.size w.pending.toList

/-- The sections that a process has the memory for. -/
def Addressable (w : Worker) : PendingSection → Prop
  | .addTx tx _ _ => w.pendingTotal + tx.size < 2 ^ 63
  | .requeue txs => w.pendingTotal + Prefix.total Transaction.size txs < 2 ^ 63
  | .pop | .drain => True

instance (w : Worker) : DecidablePred w.Addressable
  | .addTx tx _ _ => inferInstanceAs (Decidable (w.pendingTotal + tx.size < 2 ^ 63))
  | .requeue txs =>
    inferInstanceAs (Decidable (w.pendingTotal + Prefix.total Transaction.size txs < 2 ^ 63))
  | .pop | .drain => .isTrue trivial

/-! ## Heap, set and counter

A push, a pop and a drain each keep the heap, the set and the counter together. That they agree
does not depend on whether the counter has wrapped. -/

/-- What every section keeps. -/
structure Pooled (w : Worker) : Prop where
  queued : w.Queued
  ordered : w.Heaped
  counted : w.pending.size ≤ w.cfg.maxPendingTxs
  measured : w.pendingBytes = Int64.ofNat w.pendingTotal

/-- What is pending is within the limit on bytes. -/
def Within (w : Worker) : Prop :=
  w.pending = #[] ∨ (w.pendingTotal : Int) ≤ w.cfg.maxPendingBytes.toInt

variable {w : Worker}

omit [Crypto] in
theorem Within.lt (h : w.Within) : w.pendingTotal < 2 ^ 63 := by
  have hmax := Int64.toInt_lt w.cfg.maxPendingBytes
  rcases h with hempty | hle
  · rw [pendingTotal, hempty]
    decide
  · omega

theorem pooled_new (id validatorID : UInt16) (cfg : WorkerConfig) (quorum : Nat) :
    (new id validatorID cfg quorum).Pooled :=
  ⟨.of_empty rfl rfl, fun k _ hk => absurd hk (by simp [new]), Nat.zero_le _, rfl⟩

theorem Pooled.toInt_pendingBytes (h : w.Pooled) (hlt : w.pendingTotal < 2 ^ 63) :
    w.pendingBytes.toInt = w.pendingTotal := by
  rw [h.measured, Int64.toInt_ofNat_of_lt hlt]

theorem pendingTotal_pushPending (w : Worker) (tx : Transaction) (priority : Int64) :
    (w.pushPending tx priority).pendingTotal = w.pendingTotal + tx.size := by
  have hperm : (w.pushPending tx priority).pending.toList ~
      w.nextEntry tx priority :: w.pending.toList := Heap.push_perm _ _
  rw [pendingTotal, Prefix.total_of_perm _ hperm, Prefix.total_cons, Nat.add_comm]
  rfl

theorem Pooled.pushPending (h : w.Pooled) {tx : Transaction}
    (hset : w.pendingSet.has tx.hash = false) (hfull : w.full tx = false) (priority : Int64) :
    (w.pushPending tx priority).Pooled where
  queued := h.queued.pushPending hset priority
  ordered := (pushPending_requeued hset priority).heaped h.ordered
  counted := by
    have hroom := ((full_eq_false w tx).mp hfull).1
    show (Heap.push PendingEntry.less w.pending _).size ≤ w.cfg.maxPendingTxs
    rw [Heap.size_push]
    exact hroom
  measured := by
    rw [pendingTotal_pushPending, Int64.ofNat_add, ← h.measured]
    rfl

theorem Pooled.within_pushPending (h : w.Pooled) {tx : Transaction} (hfull : w.full tx = false)
    (hmem : w.pendingTotal + tx.size < 2 ^ 63) (priority : Int64) :
    (w.pushPending tx priority).Within := by
  have hroom := ((full_eq_false w tx).mp hfull).2
  rw [h.measured, ← Int64.ofNat_add, Int64.le_iff_toInt_le, Int64.toInt_ofNat_of_lt hmem] at hroom
  rw [Within, pendingTotal_pushPending]
  exact .inr hroom

omit [Crypto] in
theorem pendingTotal_pop {entry : PendingEntry} {rest : Array PendingEntry}
    (hpop : Heap.pop PendingEntry.less w.pending = some (entry, rest)) :
    w.pendingTotal = entry.size + Prefix.total PendingEntry.size rest.toList := by
  rw [pendingTotal, Prefix.total_of_perm _ (Heap.pop_perm hpop), Prefix.total_cons]

/-- What is left when a batch was taken, before the counter is set. -/
structure TakenFrom (w : Worker) (batchBytes : Int64) (w' : Worker) : Prop where
  cfg : w'.cfg = w.cfg
  counter : w'.pendingBytes = w.pendingBytes
  seq : w'.pendingSeq = w.pendingSeq
  pending : w'.pending.toList <+~ w.pending.toList
  total : Int64.ofNat w'.pendingTotal + batchBytes = Int64.ofNat w.pendingTotal

theorem popBatch_takenFrom (w : Worker) (maxCount : Nat) :
    w.TakenFrom (w.popBatch maxCount [] 0).2.1 (w.popBatch maxCount [] 0).2.2 := by
  refine popBatch_induction (motive := fun _ batchBytes w' => w.TakenFrom batchBytes w')
    (fun w' txs batchBytes entry rest hpop h => ?_)
    ⟨rfl, rfl, rfl, List.Subperm.refl _, Int64.add_zero _⟩ maxCount
  refine ⟨h.cfg, h.counter, h.seq, ?_, ?_⟩
  · have hsub : rest.toList <+~ w'.pending.toList :=
      (List.sublist_cons_self entry _).subperm.trans (Heap.pop_perm hpop).symm.subperm
    exact hsub.trans h.pending
  · rw [← h.total, pendingTotal_pop hpop, Nat.add_comm entry.size, Int64.ofNat_add, Int64.add_assoc,
      Int64.add_comm batchBytes]
    rfl

theorem Pooled.beginBatch (h : w.Pooled) : w.beginBatch.2.Pooled := by
  have hqueued := w.beginBatch_requeued.queued h.queued
  have hheaped := w.beginBatch_requeued.heaped h.ordered
  unfold Worker.beginBatch at hqueued hheaped ⊢
  split
  · exact h
  · next hsize =>
      rw [if_neg hsize] at hqueued hheaped
      have htaken := w.popBatch_takenFrom (min w.cfg.batchSize w.pending.size)
      generalize w.popBatch (min w.cfg.batchSize w.pending.size) [] 0 = popped
        at hqueued hheaped htaken ⊢
      refine ⟨hqueued, hheaped, ?_, ?_⟩
      · have hle := htaken.pending.length_le
        rw [htaken.cfg]
        exact Nat.le_trans hle h.counted
      · show popped.2.2.pendingBytes - popped.2.1 = Int64.ofNat popped.2.2.pendingTotal
        rw [htaken.counter, h.measured, ← htaken.total, Int64.add_sub_cancel]

theorem beginBatch_subperm (w : Worker) :
    w.beginBatch.2.pending.toList <+~ w.pending.toList ∧
      w.beginBatch.2.pendingSeq = w.pendingSeq ∧ w.beginBatch.2.cfg = w.cfg := by
  unfold Worker.beginBatch
  split
  · exact ⟨List.Subperm.refl _, rfl, rfl⟩
  · have htaken := w.popBatch_takenFrom (min w.cfg.batchSize w.pending.size)
    exact ⟨htaken.pending, htaken.seq, htaken.cfg⟩

theorem Pooled.drainPending (h : w.Pooled) : w.drainPending.2.Pooled := by
  unfold Worker.drainPending
  split
  · exact h
  · exact ⟨.of_empty rfl rfl, fun k _ hk => absurd hk (Nat.not_lt_zero k), Nat.zero_le _, rfl⟩

theorem Pooled.runSection (h : w.Pooled) (e : PendingSection) : (w.runSection e).1.Pooled := by
  cases e with
  | addTx tx priority indexed =>
    rw [Worker.runSection]
    rcases w.admitTx_cases tx priority indexed with ⟨hw, -⟩ | ⟨hset, -, hfull, hw, -⟩
    · rw [hw]
      exact h
    · rw [hw]
      exact h.pushPending hset hfull priority
  | pop => exact h.beginBatch
  | requeue txs =>
    exact requeueTransactions_induction (motive := fun w _ => w.Pooled)
      (fun w _ tx h hset hfull => h.pushPending hset hfull 0) txs [] h
  | drain => exact h.drainPending

/-! ## The limit on bytes

The counter is below the limit when something is let in, and only that adds to it; so the sum is,
while it does not wrap. -/

omit [Crypto] in
theorem pendingTotal_le_of_subperm {w' : Worker} (h : w'.pending.toList <+~ w.pending.toList) :
    w'.pendingTotal ≤ w.pendingTotal := by
  obtain ⟨l, hperm, hsub⟩ := h
  rw [pendingTotal, ← Prefix.total_of_perm _ hperm]
  exact Prefix.total_le_of_sublist _ hsub

omit [Crypto] in
theorem Within.of_subperm (h : w.Within) {w' : Worker}
    (hsub : w'.pending.toList <+~ w.pending.toList) (hcfg : w'.cfg = w.cfg) : w'.Within := by
  rcases h with hempty | hle
  · rw [hempty] at hsub
    refine .inl (Array.toList_eq_nil_iff.mp ?_)
    exact List.subperm_nil.mp hsub
  · have := pendingTotal_le_of_subperm hsub
    refine .inr ?_
    rw [hcfg]
    omega

theorem Pooled.within_requeueTransactions (h : w.Pooled) (hin : w.Within) {txs : List Transaction}
    (hmem : w.pendingTotal + Prefix.total Transaction.size txs < 2 ^ 63) :
    (w.requeueTransactions txs).Within := by
  induction txs generalizing w with
  | nil => exact hin
  | cons tx txs ih =>
    rw [Prefix.total_cons] at hmem
    rw [requeueTransactions]
    split
    · exact ih h hin (by omega)
    · next hset =>
        split
        · exact hin
        · next hfull =>
            have hset : w.pendingSet.has tx.hash = false := by simpa using hset
            have hfull : w.full tx = false := by simpa using hfull
            refine ih (h.pushPending hset hfull 0)
              (h.within_pushPending hfull (by omega) 0) ?_
            rw [pendingTotal_pushPending]
            omega

theorem Pooled.within_runSection (h : w.Pooled) (hin : w.Within) {e : PendingSection}
    (hmem : w.Addressable e) : (w.runSection e).1.Within := by
  cases e with
  | addTx tx priority indexed =>
    rw [Worker.runSection]
    rcases w.admitTx_cases tx priority indexed with ⟨hw, -⟩ | ⟨-, -, hfull, hw, -⟩
    · rw [hw]
      exact hin
    · rw [hw]
      exact h.within_pushPending hfull hmem priority
  | pop =>
    obtain ⟨hsub, -, hcfg⟩ := w.beginBatch_subperm
    exact hin.of_subperm hsub hcfg
  | requeue txs => exact h.within_requeueTransactions hin hmem
  | drain =>
    rw [Worker.runSection, Worker.drainPending]
    split
    · exact hin
    · exact .inl rfl

/-! ## Sequence numbers

The log has every entry that was put in. Its numbers count up, and what is pending is part of it.
-/

/-- What is pending has been put in, and what was put in is numbered from one on. -/
structure Sequenced (w : Worker) (log : List PendingEntry) : Prop where
  numbers : log.map (·.sequence) = (List.range log.length).map fun n => UInt64.ofNat (n + 1)
  next : w.pendingSeq = UInt64.ofNat log.length
  pending : w.pending.toList <+~ log

variable {log : List PendingEntry}

theorem Sequenced.pushPending (h : w.Sequenced log) (tx : Transaction) (priority : Int64) :
    (w.pushPending tx priority).Sequenced (log ++ [w.nextEntry tx priority]) where
  numbers := by
    rw [List.map_append, h.numbers, List.length_append, List.length_singleton, List.range_succ,
      List.map_append]
    simp [nextEntry, h.next]
  next := by
    show w.pendingSeq + 1 = _
    simp [h.next]
  pending := by
    have hperm : (w.pushPending tx priority).pending.toList ~
        w.pending.toList ++ [w.nextEntry tx priority] :=
      (Heap.push_perm _ _).trans (List.perm_append_singleton _ _).symm
    exact hperm.subperm.trans (List.Subperm.append h.pending (List.Subperm.refl _))

omit [Crypto] in
theorem Sequenced.of_subperm (h : w.Sequenced log) {w' : Worker}
    (hsub : w'.pending.toList <+~ w.pending.toList) (hseq : w'.pendingSeq = w.pendingSeq) :
    w'.Sequenced log :=
  ⟨h.numbers, hseq.trans h.next, hsub.trans h.pending⟩

theorem Sequenced.runSection (h : w.Sequenced log) (e : PendingSection) :
    (w.runSection e).1.Sequenced (log ++ (w.runSection e).2) := by
  cases e with
  | addTx tx priority indexed =>
    rw [Worker.runSection]
    rcases w.admitTx_cases tx priority indexed with ⟨hw, hlog⟩ | ⟨-, -, -, hw, hlog⟩
    · rw [hw, hlog, List.append_nil]
      exact h
    · rw [hw, hlog]
      exact h.pushPending tx priority
  | pop =>
    obtain ⟨hsub, hseq, -⟩ := w.beginBatch_subperm
    rw [Worker.runSection, List.append_nil]
    exact h.of_subperm hsub hseq
  | requeue txs =>
    exact requeueTransactions_induction (motive := fun w log => w.Sequenced log)
      (fun w log tx h _ _ => h.pushPending tx 0) txs log h
  | drain =>
    rw [Worker.runSection, List.append_nil, Worker.drainPending]
    split
    · exact h
    · exact h.of_subperm (List.nil_subperm) rfl

omit [Crypto] in
theorem Sequenced.increasing (h : w.Sequenced log) (hlog : log.length < 2 ^ 64) :
    log.Pairwise fun a b => a.sequence < b.sequence := by
  rw [← List.pairwise_map (f := PendingEntry.sequence) (R := fun a b => a < b), h.numbers,
    List.pairwise_map]
  refine List.pairwise_lt_range.imp_of_mem fun {a b} ha hb hlt => ?_
  rw [List.mem_range] at ha hb
  rw [UInt64.lt_iff_toNat_lt, UInt64.toNat_ofNat', UInt64.toNat_ofNat',
    Nat.mod_eq_of_lt (by omega), Nat.mod_eq_of_lt (by omega)]
  omega

omit [Crypto] in
theorem Sequenced.nodup (h : w.Sequenced log) (hlog : log.length < 2 ^ 64) :
    (w.pending.toList.map (·.sequence)).Nodup := by
  have hnodup : (log.map (·.sequence)).Nodup := by
    rw [List.nodup_iff_pairwise_ne, List.pairwise_map]
    exact (h.increasing hlog).imp fun hlt => UInt64.ne_of_lt hlt
  obtain ⟨l, hperm, hsub⟩ := h.pending
  exact (hperm.map _).nodup_iff.mp (hnodup.sublist (hsub.map _))

theorem pooled_of_reach (hreach : PendingReach (fun w _ e => w.Addressable e) w log) :
    w.Pooled ∧ w.Within ∧ w.Sequenced log := by
  refine Run.Reach.invariant (I := fun w log => w.Pooled ∧ w.Within ∧ w.Sequenced log) ?_ ?_
    hreach
  · rintro w ⟨id, validatorID, cfg, quorum, rfl⟩
    exact ⟨pooled_new id validatorID cfg quorum, .inl rfl, rfl, rfl, List.nil_subperm⟩
  · exact fun w log e ⟨hpooled, hin, hseq⟩ hmem => ⟨hpooled.runSection e,
      hpooled.within_runSection hin hmem, hseq.runSection e⟩

/-- After any interleaving of the sections: what is pending is there once, the set is that of
its hashes and the counter its size, the limits hold and the heap is in order. The numbers
are distinct while fewer than `2 ^ 64` were handed out. -/
theorem pending_pool_consistent
    (hreach : PendingReach (fun w _ e => w.Addressable e) w log) :
    w.pendingHashes.Nodup ∧
    (log.length < 2 ^ 64 → (w.pending.toList.map (·.sequence)).Nodup) ∧
    (∀ h, w.pendingSet.has h = true ↔ h ∈ w.pendingHashes) ∧
    w.pendingBytes.toInt = w.pendingTotal ∧ 0 ≤ w.pendingBytes ∧
    w.pending.size ≤ w.cfg.maxPendingTxs ∧
    (0 ≤ w.cfg.maxPendingBytes → w.pendingBytes ≤ w.cfg.maxPendingBytes) ∧
    Heap.Ordered PendingEntry.less w.pending.size w.pending := by
  obtain ⟨hpooled, hin, hseq⟩ := pooled_of_reach hreach
  have hbytes := hpooled.toInt_pendingBytes hin.lt
  refine ⟨hpooled.queued.nodup, hseq.nodup, hpooled.queued.has_iff, hbytes, ?_,
    hpooled.counted, fun hlimit => ?_, hpooled.ordered⟩
  · rw [Int64.le_iff_toInt_le, hbytes]
    exact Int.natCast_nonneg _
  · rw [Int64.le_iff_toInt_le] at hlimit ⊢
    rcases hin with hempty | hle
    · rw [hpooled.measured, pendingTotal, hempty]
      exact hlimit
    · rw [hbytes]
      exact hle

end Worker

section

attribute [local instance] idealCrypto

/-- Room for two transactions, and one in a batch. -/
def tightConfig : WorkerConfig :=
  { batchSize := 1, batchBytes := 0, maxPendingTxs := 2, maxPendingBytes := 10, ackTimeout := 0 }

theorem pending_pool_consistent_tight :
    ∃ w log, Worker.PendingReach (fun w _ e => w.Addressable e) w log ∧ log.length = 2 ∧
      w.pending.size = 1 ∧ (w.pending.toList.map (·.sequence)).Nodup ∧
      w.pendingBytes ≤ w.cfg.maxPendingBytes := by
  have hreach : Worker.PendingReach (fun w _ e => w.Addressable e) _ _ :=
    Run.Reach.of_exec ⟨0, 0, tightConfig, 3, rfl⟩
      (show Run.AllOk _ _ _ _ [.addTx [0] 0 false, .addTx [1] 1 false, .pop] by decide)
  have hpool := Worker.pending_pool_consistent hreach
  exact ⟨_, _, hreach, by decide, by decide, hpool.2.1 (by decide), hpool.2.2.2.2.2.2.1 (by decide)⟩

/-! ## What wraps

One transaction of low priority stays while others go past it, one at a time, until the numbers
start again. -/

def firstEntry : PendingEntry := { tx := [0], priority := 0, sequence := 1 }

/-- A worker in which only this one is pending. -/
structure Waiting (w : Worker) : Prop where
  pending : w.pending = #[firstEntry]
  cfg : w.cfg = tightConfig

namespace Waiting

variable {w : Worker} {log : List PendingEntry}

theorem enters (h : Waiting w) (hpooled : w.Pooled) :
    (w.runSection (.addTx [1] 1 false)).1 = w.pushPending [1] 1 ∧
      (w.pushPending [1] 1).pending = #[w.nextEntry [1] 1, firstEntry] := by
  have hset : w.pendingSet.has (Transaction.hash [1]) = false := by
    rw [Bool.eq_false_iff, Ne, hpooled.queued.has_iff, Worker.pendingHashes, h.pending]
    decide
  have hfull : w.full [1] = false := by
    rw [Worker.full_eq_false, hpooled.measured, Worker.pendingTotal, h.pending, h.cfg]
    decide
  refine ⟨?_, ?_⟩
  · show (w.admitTx [1] 1 false).2 = _
    simp [Worker.admitTx, hset, hfull]
  · show Heap.push PendingEntry.less w.pending (w.nextEntry [1] 1) = _
    have hless : (w.nextEntry [1] 1).less firstEntry = true :=
      PendingEntry.less_eq_true.mpr (.inl (show (0 : Int64).toInt < (1 : Int64).toInt by decide))
    rw [h.pending]
    simp [Heap.push, Heap.up, Heap.lessAt, hless, Array.swapIfInBounds]

theorem pop (h : Waiting w) (hpooled : w.Pooled) :
    Waiting (w.pushPending [1] 1).beginBatch.2 ∧
      (w.pushPending [1] 1).beginBatch.2.pendingSeq = w.pendingSeq + 1 := by
  have hpending := (h.enters hpooled).2
  have hcfg : (w.pushPending [1] 1).cfg = tightConfig := h.cfg
  have hpop : Heap.pop PendingEntry.less (w.pushPending [1] 1).pending =
      some (w.nextEntry [1] 1, #[firstEntry]) := by
    rw [hpending]
    simp [Heap.pop, Heap.down, Array.swapIfInBounds]
  have hbatch : (w.pushPending [1] 1).cfg.batchSize = 1 := by rw [hcfg]; rfl
  have hbytes : (w.pushPending [1] 1).cfg.batchBytes = 0 := by rw [hcfg]; rfl
  have hsize : (w.pushPending [1] 1).pending.size = 2 := by rw [hpending]; rfl
  have htaken : (w.pushPending [1] 1).popBatch (min 1 2) [] 0 =
      ([[1]], 0 + Int64.ofNat 1, { w.pushPending [1] 1 with
        pending := #[firstEntry]
        pendingSet := (w.pushPending [1] 1).pendingSet.del (Transaction.hash [1]) }) := by
    show (w.pushPending [1] 1).popBatch (0 + 1) [] 0 = _
    rw [Worker.popBatch, hpop]
    simp [hbytes, Worker.popBatch, Worker.nextEntry, Transaction.size]
  rw [Worker.beginBatch, hsize, if_neg (by decide), hbatch, htaken]
  exact ⟨⟨rfl, hcfg⟩, rfl⟩

theorem repeated (n : Nat) :
    ∃ w log, Worker.PendingReach (fun w _ e => w.Addressable e) w log ∧ Waiting w ∧
      w.pendingSeq = UInt64.ofNat (n + 1) := by
  induction n with
  | zero =>
    refine ⟨_, _, Run.Reach.of_exec ⟨0, 0, tightConfig, 3, rfl⟩
      (show Run.AllOk _ _ _ _ [.addTx [0] 0 false] by decide), ⟨rfl, rfl⟩, rfl⟩
  | succ n ih =>
    obtain ⟨w, log, hreach, hwaiting, hseq⟩ := ih
    obtain ⟨hpooled, -, -⟩ := Worker.pooled_of_reach hreach
    have hmem : w.Addressable (.addTx [1] 1 false) := by
      show w.pendingTotal + 1 < 2 ^ 63
      rw [Worker.pendingTotal, hwaiting.pending]
      decide
    have hnext := Run.Reach.next PendingSection.pop (Run.Reach.next _ hreach hmem) trivial
    rw [(hwaiting.enters hpooled).1] at hnext
    obtain ⟨hwaiting', hseq'⟩ := hwaiting.pop hpooled
    refine ⟨_, _, hnext, hwaiting', ?_⟩
    rw [show (Worker.runSection _ .pop).1 = (w.pushPending [1] 1).beginBatch.2 from rfl, hseq',
      hseq]
    simp

end Waiting

/-- After `2 ^ 64` transactions a number comes again while the first one that had it is still
pending. And a limit below zero, under which nothing is let in, is exceeded from the start. -/
theorem pending_pool_limits_exceeded :
    (∃ w log, Worker.PendingReach (fun w _ e => w.Addressable e) w log ∧
      0 ≤ w.cfg.maxPendingBytes ∧ ¬ (w.pending.toList.map (·.sequence)).Nodup) ∧
    (let w := Worker.new 0 0 { tightConfig with maxPendingBytes := -1 } 3
     w.cfg.maxPendingBytes < w.pendingBytes) := by
  refine ⟨?_, by decide⟩
  obtain ⟨w, log, hreach, hwaiting, hseq⟩ := Waiting.repeated (2 ^ 64 - 1)
  obtain ⟨hpooled, -, -⟩ := Worker.pooled_of_reach hreach
  have hmem : w.Addressable (.addTx [1] 1 false) := by
    show w.pendingTotal + 1 < 2 ^ 63
    rw [Worker.pendingTotal, hwaiting.pending]
    decide
  have hnext := Run.Reach.next _ hreach hmem
  obtain ⟨hw, hpending⟩ := hwaiting.enters hpooled
  rw [hw] at hnext
  refine ⟨_, _, hnext, ?_, ?_⟩
  · show 0 ≤ w.cfg.maxPendingBytes
    rw [hwaiting.cfg]
    decide
  · rw [hpending]
    simp [Worker.nextEntry, firstEntry, hseq]

end

end DagMempool
