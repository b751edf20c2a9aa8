import DagMempool.Proofs.WorkerQueue

/-!
# What every run of a pool keeps

In every state a run reaches, each worker is running and its queue is in order, and
there is a place for the batch of each worker. How often a hash is pending in the pool
is the sum over its workers, so that an event changes it by what it does to one worker.
-/

namespace DagMempool

open scoped List

section

variable {α β : Type} [DecidableEq β] (f : α → List β) {l : List α} {i : Nat} {a : α}

theorem count_flatMap_eraseIdx (h : l[i]? = some a) (x : β) :
    (l.flatMap f).count x = ((l.eraseIdx i).flatMap f).count x + (f a).count x := by
  obtain ⟨hi, rfl⟩ := List.getElem?_eq_some_iff.mp h
  rw [← ((List.getElem_cons_eraseIdx_perm hi).flatMap_right f).count_eq x, List.flatMap_cons,
    List.count_append, Nat.add_comm]

theorem count_flatMap_set (h : l[i]? = some a) (a' : α) (x : β) :
    ((l.set i a').flatMap f).count x + (f a).count x =
      (l.flatMap f).count x + (f a').count x := by
  obtain ⟨hi, -⟩ := List.getElem?_eq_some_iff.mp h
  have hset := ((List.set_perm_cons_eraseIdx hi a').flatMap_right f).count_eq x
  rw [List.flatMap_cons, List.count_append] at hset
  rw [hset, count_flatMap_eraseIdx f h]
  omega

theorem count_flatMap_dropLast (h : l.getLast? = some a) (x : β) :
    (l.flatMap f).count x = (l.dropLast.flatMap f).count x + (f a).count x := by
  have hl : l.dropLast ++ [a] = l := List.dropLast_append_getLast? a h
  calc (l.flatMap f).count x = ((l.dropLast ++ [a]).flatMap f).count x := by rw [hl]
    _ = _ := by simp

omit [DecidableEq β] in
theorem mem_set_or_eq {x a' : α} (hx : x ∈ l) (h : l[i]? = some a) : x ∈ l.set i a' ∨ x = a := by
  obtain ⟨j, hj⟩ := List.mem_iff_getElem?.mp hx
  by_cases hij : i = j
  · subst hij
    exact .inr (Option.some.inj (hj.symm.trans h))
  · rw [← List.getElem?_set_ne hij] at hj
    exact .inl (List.mem_of_getElem? hj)

theorem mem_dropLast_or_getLast? {x : α} (hx : x ∈ l) :
    x ∈ l.dropLast ∨ l.getLast? = some x := by
  obtain ⟨y, hy⟩ := Option.isSome_iff_exists.mp
    (List.getLast?_isSome.mpr (List.ne_nil_of_mem hx))
  have hl : l.dropLast ++ [y] = l := List.dropLast_append_getLast? y hy
  rw [← hl, List.mem_append, List.mem_singleton] at hx
  rcases hx with hrest | rfl
  · exact .inl hrest
  · exact .inr hy

end

variable [Crypto]

namespace Pool

def pendingHashes (p : Pool) : List Hash := p.workers.flatMap Worker.pendingHashes

@[simp] theorem pendingHashes_addWorker (p : Pool) :
    p.addWorker.pendingHashes = p.pendingHashes := by
  simp only [pendingHashes, addWorker, List.flatMap_append]
  exact List.append_nil _

@[simp] theorem pendingHashes_addWorkers (p : Pool) (n : Nat) :
    (p.addWorkers n).pendingHashes = p.pendingHashes := by
  induction n generalizing p with
  | zero => rfl
  | succ n ih => rw [addWorkers, ih, pendingHashes_addWorker]

@[simp] theorem pendingHashes_scaleUp (p : Pool) :
    p.scaleUp.pendingHashes = p.pendingHashes := by
  unfold scaleUp
  split
  · rfl
  · split
    · rfl
    · exact p.pendingHashes_addWorker

theorem pendingHashes_start (cfg : PoolConfig) (validatorID : UInt16) (quorum : Nat)
    (txValidator : Option TxValidator) :
    (new cfg validatorID quorum txValidator).start.pendingHashes = [] :=
  pendingHashes_addWorkers { new cfg validatorID quorum txValidator with running := true }
    cfg.minWorkers

variable {TI : Type} [TxIndex TI]

theorem addTx_cases (p : Pool) (txIndex : TI) (tx : Transaction) :
    (p.addTx txIndex tx).2 = p ∨
      ∃ w, p.workers[p.route tx]? = some w ∧
        (p.addTx txIndex tx).2 =
          { p with
            workers := p.workers.set (p.route tx) (w.addTx txIndex p.txValidator tx).2 } := by
  unfold addTx
  split
  · exact .inl rfl
  · cases hw : p.workers[p.route tx]? with
    | none => exact .inl rfl
    | some w => exact .inr ⟨w, rfl, rfl⟩

theorem count_addTx (p : Pool) (txIndex : TI) (tx : Transaction) (h : Hash) :
    (p.addTx txIndex tx).2.pendingHashes.count h ≤
      p.pendingHashes.count h + [tx.hash].count h := by
  rcases p.addTx_cases txIndex tx with he | ⟨w, hw, he⟩
  · rw [he]
    exact Nat.le_add_right _ _
  · rw [he]
    have hset := count_flatMap_set Worker.pendingHashes hw
      (w.addTx txIndex p.txValidator tx).2 h
    have hadd := w.count_addTx txIndex p.txValidator tx h
    unfold pendingHashes
    dsimp only
    omega

theorem count_addTxs (p : Pool) (txIndex : TI) (txs : List Transaction) (h : Hash) :
    (p.addTxs txIndex txs).pendingHashes.count h ≤
      p.pendingHashes.count h + (hashes txs).count h := by
  induction txs generalizing p with
  | nil => exact Nat.le_add_right _ _
  | cons tx txs ih =>
    have hcons := count_hashes_cons tx txs h
    have hone := p.count_addTx txIndex tx h
    have hrest := ih (p.addTx txIndex tx).2
    change ((p.addTx txIndex tx).2.addTxs txIndex txs).pendingHashes.count h ≤ _
    omega

end Pool

def Worker.queue (w : Worker) : Array PendingEntry × GoMap Hash Unit × Bool :=
  (w.pending, w.pendingSet, w.running)

namespace Pool

/-- Worker by worker, the queues are the same. -/
def SameQueues (p p' : Pool) : Prop :=
  p'.workers.map Worker.queue = p.workers.map Worker.queue

omit [Crypto] in
theorem sameQueues_map (p : Pool) {f : Worker → Worker} (hf : ∀ w, (f w).queue = w.queue) :
    p.SameQueues { p with workers := p.workers.map f } := by
  unfold SameQueues
  rw [List.map_map]
  exact List.map_congr_left fun w _ => hf w

omit [Crypto] in
theorem sameQueues_setRound (p : Pool) (round : UInt64) : p.SameQueues (p.setRound round) :=
  p.sameQueues_map (f := (·.setRound round)) fun _ => rfl

omit [Crypto] in
theorem sameQueues_updateQuorum (p : Pool) (quorum : Nat) :
    p.SameQueues (p.updateQuorum quorum) :=
  p.sameQueues_map (f := fun w => { w with ackTracker := w.ackTracker.updateQuorum quorum })
    fun _ => rfl

omit [Crypto] in
theorem sameQueues_removeTimedOutAcks (p : Pool) (now : Int) :
    p.SameQueues (p.removeTimedOutAcks now) :=
  p.sameQueues_map (f := fun w => { w with ackTracker := w.ackTracker.removeTimedOut now })
    fun _ => rfl

omit [Crypto] in
theorem sameQueues_recordAck (p : Pool) (batchDigest : Hash) (validator : UInt16) :
    p.SameQueues (p.recordAck batchDigest validator) := by
  unfold SameQueues recordAck
  generalize p.workers = ws
  induction ws with
  | nil => rfl
  | cons w ws ih =>
    rw [recordAckIn]
    split
    · rfl
    · exact congrArg (w.queue :: ·) ih

theorem SameQueues.pendingHashes {p p' : Pool} (h : p.SameQueues p') :
    p'.pendingHashes = p.pendingHashes := by
  have hmap : ∀ ws : List Worker, ws.flatMap Worker.pendingHashes =
      (ws.map Worker.queue).flatMap fun q => q.1.toList.map (·.tx.hash) := by
    intro ws
    rw [List.flatMap_map]
    rfl
  unfold Pool.pendingHashes
  rw [hmap, hmap, h]

end Pool

/-! ## The invariant of every run

Workers come and go with the scaling of the pool, and with each the place for its batch. -/

namespace PoolSystem

variable {BS TI : Type}

structure Sound (s : PoolSystem BS TI) : Prop where
  lengths : s.creating.length = s.pool.workers.length
  queued : ∀ w ∈ s.pool.workers, w.Queued
  running : ∀ w ∈ s.pool.workers, w.running = true

variable {s : PoolSystem BS TI}

theorem Sound.sameQueues (hs : s.Sound) {p : Pool} (h : s.pool.SameQueues p) :
    { s with pool := p }.Sound := by
  have hback : ∀ w ∈ p.workers, ∃ w' ∈ s.pool.workers, w'.queue = w.queue := by
    intro w hw
    have hmem : w.queue ∈ s.pool.workers.map Worker.queue := by
      rw [← h]
      exact List.mem_map_of_mem hw
    obtain ⟨w', hw', heq⟩ := List.mem_map.mp hmem
    exact ⟨w', hw', heq⟩
  refine ⟨?_, fun w hw => ?_, fun w hw => ?_⟩
  · have hlen := congrArg List.length h
    rw [List.length_map, List.length_map] at hlen
    exact hs.lengths.trans hlen.symm
  · obtain ⟨w', hw', heq⟩ := hback w hw
    simp only [Worker.queue, Prod.mk.injEq] at heq
    obtain ⟨hnodup, hhas⟩ := hs.queued w' hw'
    unfold Worker.pendingHashes at hnodup hhas
    rw [heq.1] at hnodup hhas
    rw [heq.2.1] at hhas
    exact ⟨hnodup, hhas⟩
  · obtain ⟨w', hw', heq⟩ := hback w hw
    simp only [Worker.queue, Prod.mk.injEq] at heq
    exact heq.2.2.symm.trans (hs.running w' hw')

theorem Sound.setWorker (hs : s.Sound) {w : Worker} (hqueued : w.Queued)
    (hrunning : w.running = true) (idx : Nat) :
    { s with pool := { s.pool with workers := s.pool.workers.set idx w } }.Sound where
  lengths := by simpa using hs.lengths
  queued w' hw' := by
    rcases List.mem_or_eq_of_mem_set hw' with hold | rfl
    · exact hs.queued w' hold
    · exact hqueued
  running w' hw' := by
    rcases List.mem_or_eq_of_mem_set hw' with hold | rfl
    · exact hs.running w' hold
    · exact hrunning

theorem Sound.withWorker (hs : s.Sound) {w : Worker} (hqueued : w.Queued)
    (hrunning : w.running = true) (idx : Nat) (c : Option BatchCreation) :
    (s.withWorker idx w c).Sound := by
  obtain ⟨hlen, hq, hr⟩ := hs.setWorker hqueued hrunning idx
  exact ⟨List.length_set.trans hlen, hq, hr⟩

theorem Sound.addTx [TxIndex TI] (hs : s.Sound) (txIndex : TI) (tx : Transaction) :
    { s with pool := (s.pool.addTx txIndex tx).2 }.Sound := by
  rcases s.pool.addTx_cases txIndex tx with he | ⟨w, hw, he⟩
  · rw [he]
    exact hs
  · rw [he]
    have hmem := List.mem_of_getElem? hw
    exact hs.setWorker ((w.addTx_requeued _ _ _).queued (hs.queued w hmem))
      ((w.addTx_requeued _ _ _).running.trans (hs.running w hmem)) _

theorem Sound.addTxs [TxIndex TI] (hs : s.Sound) (txIndex : TI) (txs : List Transaction) :
    { s with pool := s.pool.addTxs txIndex txs }.Sound := by
  induction txs generalizing s with
  | nil => exact hs
  | cons tx txs ih => exact ih (hs.addTx txIndex tx)

theorem Sound.addWorker (hs : s.Sound) :
    { s with pool := s.pool.addWorker, creating := s.creating ++ [none] }.Sound where
  lengths := by simp [Pool.addWorker, hs.lengths]
  queued w hw := by
    rcases List.mem_append.mp hw with hold | hnew
    · exact hs.queued w hold
    · obtain rfl := List.mem_singleton.mp hnew
      exact .of_empty rfl rfl
  running w hw := by
    rcases List.mem_append.mp hw with hold | hnew
    · exact hs.running w hold
    · obtain rfl := List.mem_singleton.mp hnew
      rfl

theorem Sound.addWorkers (hs : s.Sound) (n : Nat) :
    { s with
      pool := s.pool.addWorkers n
      creating := s.creating ++ List.replicate n none }.Sound := by
  induction n generalizing s with
  | zero => simpa [Pool.addWorkers] using hs
  | succ n ih =>
    rw [List.replicate_succ, ← List.singleton_append, ← List.append_assoc]
    exact ih hs.addWorker

theorem Started.sound (h : s.Started) : s.Sound := by
  obtain ⟨cfg, validatorID, quorum, txValidator, hpool, hcreating⟩ := h
  obtain ⟨pool, batchStore, txIndex, creating⟩ := s
  subst hpool
  have hempty : Sound ({
      pool := { Pool.new cfg validatorID quorum txValidator with running := true }
      batchStore, txIndex, creating := [] } : PoolSystem BS TI) :=
    ⟨rfl, fun w hw => absurd hw (by simp [Pool.new]), fun w hw => absurd hw (by simp [Pool.new])⟩
  have hall := hempty.addWorkers cfg.minWorkers
  refine ⟨?_, hall.queued, hall.running⟩
  rw [hcreating]
  exact List.length_replicate

theorem Sound.scaleUp (hs : s.Sound) :
    { s with
      pool := s.pool.scaleUp
      creating := s.creating.rightpad s.pool.scaleUp.workers.length none }.Sound := by
  have hsame : s.creating.rightpad s.pool.workers.length none = s.creating := by
    simp [List.rightpad, hs.lengths]
  unfold Pool.scaleUp
  split
  · rw [hsame]
    exact hs
  · split
    · rw [hsame]
      exact hs
    · have hone : s.creating.rightpad s.pool.addWorker.workers.length none =
          s.creating ++ [none] := by
        simp [List.rightpad, hs.lengths, Pool.addWorker]
      rw [hone]
      exact hs.addWorker

variable [BatchStore BS] [TxIndex TI]

/-- The pool without its last worker. -/
def remaining (s : PoolSystem BS TI) : Pool :=
  { s.pool with workers := s.pool.workers.dropLast }

/-- The system after its last worker `w` is gone. -/
def withoutLast (s : PoolSystem BS TI) (w : Worker) (now : Int) : PoolSystem BS TI :=
  let stopped := s.stopRemoved w now
  { pool := s.remaining.addTxs stopped.2.2 w.drainPending.1
    batchStore := stopped.2.1, txIndex := stopped.2.2, creating := s.creating.dropLast }

theorem scaleDown_of (hrunning : s.pool.running = true)
    (hmin : s.pool.cfg.minWorkers < s.pool.workers.length) {w : Worker}
    (hlast : s.pool.workers.getLast? = some w) (now : Int) :
    s.scaleDown now = (s.withoutLast w now, (s.stopRemoved w now).1) := by
  unfold scaleDown
  rw [if_neg (by simp [hrunning]), if_neg (by omega), hlast]
  rfl

theorem scaleDown_cases (s : PoolSystem BS TI) (now : Int) :
    s.scaleDown now = (s, []) ∨
      ∃ w, s.pool.workers.getLast? = some w ∧
        s.scaleDown now = (s.withoutLast w now, (s.stopRemoved w now).1) := by
  cases hrunning : s.pool.running with
  | false => exact .inl (by simp [scaleDown, hrunning])
  | true =>
    by_cases hmin : s.pool.cfg.minWorkers < s.pool.workers.length
    · obtain ⟨w, hlast⟩ := Option.isSome_iff_exists.mp
        (List.getLast?_isSome.mpr (List.ne_nil_of_length_pos (Nat.zero_lt_of_lt hmin)))
      exact .inr ⟨w, hlast, scaleDown_of hrunning hmin hlast now⟩
    · exact .inl (by simp [scaleDown, hrunning, Nat.le_of_not_lt hmin])

theorem Sound.withoutLast (hs : s.Sound) (w : Worker) (now : Int) :
    (s.withoutLast w now).Sound := by
  have hrest : Sound { s with pool := s.remaining, creating := s.creating.dropLast } :=
    ⟨by simp [remaining, hs.lengths], fun w' hw' => hs.queued w' (List.mem_of_mem_dropLast hw'),
      fun w' hw' => hs.running w' (List.mem_of_mem_dropLast hw')⟩
  obtain ⟨hlen, hq, hr⟩ := hrest.addTxs (s.stopRemoved w now).2.2 w.drainPending.1
  exact ⟨hlen, hq, hr⟩

theorem Sound.step (hs : s.Sound) (e : PoolEvent × Int) : (s.step e).1.Sound := by
  obtain ⟨e, now⟩ := e
  cases e with
  | addTx tx => exact hs.addTx s.txIndex tx
  | scaleUp => exact hs.scaleUp
  | scaleDown =>
    rcases s.scaleDown_cases now with he | ⟨w, -, he⟩
    · rw [PoolSystem.step, he]
      exact hs
    · rw [PoolSystem.step, he]
      exact hs.withoutLast w now
  | pop idx =>
    dsimp only [PoolSystem.step]
    split
    · next w hw _ =>
        have hmem := List.mem_of_getElem? hw
        exact hs.withWorker (w.beginBatch_requeued.queued (hs.queued w hmem))
          (w.beginBatch_requeued.running.trans (hs.running w hmem)) _ _
    · exact hs
  | save idx =>
    dsimp only [PoolSystem.step]
    split
    · next w txs hw _ =>
        have hmem := List.mem_of_getElem? hw
        obtain ⟨hlen, hq, hr⟩ := hs.withWorker
          ((w.saveTxs_requeued s.batchStore txs now).queued (hs.queued w hmem))
          ((w.saveTxs_requeued _ _ _).running.trans (hs.running w hmem)) idx
          ((w.saveTxs s.batchStore txs now).1.map .saved)
        exact ⟨hlen, hq, hr⟩
    · exact hs
  | index idx =>
    dsimp only [PoolSystem.step]
    split
    · next w batch hw _ =>
        have hmem := List.mem_of_getElem? hw
        obtain ⟨hlen, hq, hr⟩ := hs.withWorker
          ((hs.queued w hmem).indexBatch s.txIndex batch now) (hs.running w hmem) idx none
        exact ⟨hlen, hq, hr⟩
    · exact hs
  | setTxValidator txValidator => exact hs.sameQueues rfl
  | setRound round => exact hs.sameQueues (s.pool.sameQueues_setRound round)
  | updateQuorum quorum => exact hs.sameQueues (s.pool.sameQueues_updateQuorum quorum)
  | recordAck batchDigest validator =>
    exact hs.sameQueues (s.pool.sameQueues_recordAck batchDigest validator)
  | removeTimedOutAcks => exact hs.sameQueues (s.pool.sameQueues_removeTimedOutAcks now)

end PoolSystem

end DagMempool
