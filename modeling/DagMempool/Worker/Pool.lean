import DagMempool.Worker.Worker

/-!
# The worker pool

Transactions are routed to a worker by the first eight bytes of their hash. The
pool's `round` is copied to a worker when it is made, and to all of them by
`setRound`; every batch created is returned for the batch callback.
-/

namespace DagMempool

structure PoolConfig where
  minWorkers : Nat
  maxWorkers : Nat
  worker : WorkerConfig

structure Pool where
  cfg : PoolConfig
  validatorID : UInt16
  quorum : Nat
  workers : List Worker
  txValidator : Option TxValidator
  round : UInt64
  running : Bool
  nextID : UInt32

namespace Pool

def new (cfg : PoolConfig) (validatorID : UInt16) (quorum : Nat)
    (txValidator : Option TxValidator) : Pool :=
  { cfg, validatorID, quorum, workers := [], txValidator, round := 0, running := false
    nextID := 0 }

def addWorker (p : Pool) : Pool :=
  let w := (Worker.new p.nextID.toUInt16 p.validatorID p.cfg.worker p.quorum).setRound p.round
  { p with nextID := p.nextID + 1, workers := p.workers ++ [{ w with running := true }] }

/-- `addWorker`, as often as there are to be workers. -/
def addWorkers (p : Pool) : Nat → Pool
  | 0 => p
  | n + 1 => p.addWorker.addWorkers n

def start (p : Pool) : Pool :=
  if p.running then p else { p with running := true }.addWorkers p.cfg.minWorkers

/-- `SetRound`, which nothing in the node calls. -/
def setRound (p : Pool) (round : UInt64) : Pool :=
  { p with round, workers := p.workers.map (·.setRound round) }

def updateQuorum (p : Pool) (quorum : Nat) : Pool :=
  { p with
    quorum
    workers := p.workers.map fun w =>
      { w with ackTracker := w.ackTracker.updateQuorum quorum } }

/-- The acks of a batch are with the worker that tracks it; the walk ends at the
first worker that reports a quorum. -/
def recordAckIn (batchDigest : Hash) (validator : UInt16) : List Worker → List Worker
  | [] => []
  | w :: ws =>
    let recorded := w.ackTracker.recordAck batchDigest validator
    let w := { w with ackTracker := recorded.2 }
    if recorded.1 then w :: ws else w :: recordAckIn batchDigest validator ws

def recordAck (p : Pool) (batchDigest : Hash) (validator : UInt16) : Pool :=
  { p with workers := recordAckIn batchDigest validator p.workers }

def hasBatchAckQuorum (p : Pool) (batchDigest : Hash) : Bool :=
  p.workers.any fun w => w.ackTracker.hasQuorum batchDigest

def pendingBatchesBelowQuorum (p : Pool) (minAge now : Int) : List Batch :=
  p.workers.flatMap fun w => w.ackTracker.pendingBelowQuorum minAge now

/-- The clean-up loop of each worker's ack tracker. -/
def removeTimedOutAcks (p : Pool) (now : Int) : Pool :=
  { p with workers := p.workers.map fun w =>
      { w with ackTracker := w.ackTracker.removeTimedOut now } }

def scaleUp (p : Pool) : Pool :=
  if !p.running then p
  else if p.cfg.maxWorkers ≤ p.workers.length then p
  else p.addWorker

section

variable [Crypto] {BS TI : Type} [BatchStore BS] [TxIndex TI]

/-- `binary.BigEndian.Uint64(txHash[:8]) % len(workers)` -/
def route (p : Pool) (tx : Transaction) : Nat :=
  (tx.hash.toNat >>> 192) % p.workers.length

def addTx (p : Pool) (txIndex : TI) (tx : Transaction) : Except GoError Unit × Pool :=
  if !p.running then (.error .notRunning, p)
  else match p.workers[p.route tx]? with
    | none => (.error .notRunning, p)
    | some w =>
      let added := w.addTx txIndex p.txValidator tx
      (added.1, { p with workers := p.workers.set (p.route tx) added.2 })

/-- `AddTx` for each transaction, results ignored. -/
def addTxs (p : Pool) (txIndex : TI) (txs : List Transaction) : Pool :=
  txs.foldl (fun p tx => (p.addTx txIndex tx).2) p

/-- One turn of the batch loop of one worker. -/
def tick (p : Pool) (idx : Nat) (batchStore : BS) (txIndex : TI) (now : Int) :
    List Batch × Pool × BS × TI :=
  match p.workers[idx]? with
  | none => ([], p, batchStore, txIndex)
  | some w =>
    let made := w.tryCreateBatch batchStore txIndex now
    (made.1.toList, { p with workers := p.workers.set idx made.2.1 }, made.2.2)

/-- Every worker is stopped in turn. -/
def stopWorkers (batchStore : BS) (txIndex : TI) (now : Int) :
    List Worker → List Batch × BS × TI
  | [] => ([], batchStore, txIndex)
  | w :: ws =>
    let stopped := w.stop batchStore txIndex now
    let rest := stopWorkers stopped.2.2.1 stopped.2.2.2 now ws
    (stopped.1.toList ++ rest.1, rest.2)

def stop (p : Pool) (batchStore : BS) (txIndex : TI) (now : Int) :
    List Batch × Pool × BS × TI :=
  if !p.running then ([], p, batchStore, txIndex)
  else
    let stopped := stopWorkers batchStore txIndex now p.workers
    (stopped.1, { p with running := false, workers := [] }, stopped.2)

/-- The last worker goes; what it had pending is routed to the others. -/
def scaleDown (p : Pool) (batchStore : BS) (txIndex : TI) (now : Int) :
    List Batch × Pool × BS × TI :=
  if !p.running then ([], p, batchStore, txIndex)
  else if p.workers.length ≤ p.cfg.minWorkers then ([], p, batchStore, txIndex)
  else match p.workers.getLast? with
    | none => ([], p, batchStore, txIndex)
    | some w =>
      let drained := w.drainPending
      let stopped := drained.2.stop batchStore txIndex now
      let p := { p with workers := p.workers.dropLast }
      (stopped.1.toList, p.addTxs stopped.2.2.2 drained.1, stopped.2.2)

/-! ## What the pool does to the batch store -/

variable (p : Pool) (batchStore : BS) (txIndex : TI) (now : Int)

theorem tick_saved (idx : Nat) (batchStore : BS) (txIndex : TI) (now : Int) :
    BatchesSaved (fun b => b.verify = true) batchStore
      (p.tick idx batchStore txIndex now).2.2.1 := by
  unfold tick
  split
  · exact .refl _
  · exact Worker.tryCreateBatch_saved _ _ _ _

theorem stopWorkers_saved (ws : List Worker) :
    BatchesSaved (fun b => b.verify = true) batchStore
      (stopWorkers batchStore txIndex now ws).2.1 := by
  induction ws generalizing batchStore txIndex with
  | nil => exact .refl _
  | cons w ws ih => exact (Worker.stop_saved w batchStore txIndex now).trans (ih _ _)

theorem stop_saved :
    BatchesSaved (fun b => b.verify = true) batchStore
      (p.stop batchStore txIndex now).2.2.1 := by
  unfold stop
  split
  · exact .refl _
  · exact stopWorkers_saved _ _ _ _

theorem scaleDown_saved :
    BatchesSaved (fun b => b.verify = true) batchStore
      (p.scaleDown batchStore txIndex now).2.2.1 := by
  unfold scaleDown
  split
  · exact .refl _
  · split
    · exact .refl _
    · split
      · exact .refl _
      · exact Worker.stop_saved _ _ _ _

/-- A drained worker has nothing to make a last batch of. -/
theorem scaleDown_fst : (p.scaleDown batchStore txIndex now).1 = [] := by
  have hdrained : ∀ w : Worker, (w.drainPending.2.stop batchStore txIndex now).1 = none := by
    intro w
    have hsize : w.drainPending.2.pending.size = 0 := by
      unfold Worker.drainPending
      split
      · next hzero => exact hzero
      · rfl
    unfold Worker.stop
    split
    · rfl
    · unfold Worker.tryCreateBatch
      rw [if_pos hsize]
  unfold scaleDown
  split
  · rfl
  · split
    · rfl
    · split
      · rfl
      · next w _ =>
          dsimp only
          rw [hdrained w]
          rfl

end

end Pool

/-! ## Worker by worker

Most calls replace some of the workers and leave their number alone. What the operations of a
worker keep is then kept in every place of the pool: by all workers if all had it, and by some
worker if one had. -/

section

variable {α β : Type} {R : α → β → Prop} {l : List α} {l' : List β}

theorem exists_of_mem_right (h : List.Forall₂ R l l') : ∀ b ∈ l', ∃ a ∈ l, R a b := by
  induction h with
  | nil => simp
  | cons hab _ ih =>
    rintro b (_ | ⟨_, hb⟩)
    · exact ⟨_, List.mem_cons_self, hab⟩
    · exact (ih b hb).imp fun a ha => ⟨.tail _ ha.1, ha.2⟩

theorem exists_of_mem_left (h : List.Forall₂ R l l') : ∀ a ∈ l, ∃ b ∈ l', R a b :=
  exists_of_mem_right (R := flip R) h.flip

theorem forall₂_set {R : α → α → Prop} (hrefl : ∀ a, R a a) {i : Nat} {a a' : α}
    (ha : l[i]? = some a) (haa' : R a a') : List.Forall₂ R l (l.set i a') := by
  induction l generalizing i with
  | nil => cases ha
  | cons b l ih =>
    cases i with
    | zero =>
      cases ha
      exact .cons haa' (List.forall₂_same.mpr fun a _ => hrefl a)
    | succ i => exact .cons (hrefl b) (ih ha)

end

namespace Pool

/-- The pool with each worker replaced by one that has the property if it had. -/
def Turned (K : Worker → Prop) (p p' : Pool) : Prop :=
  ∃ ws, List.Forall₂ (fun w w' => K w → K w') p.workers ws ∧ p' = { p with workers := ws }

theorem Turned.refl (p : Pool) : p.Turned K p :=
  ⟨_, List.forall₂_same.mpr fun _ _ => id, rfl⟩

variable [Crypto] {K : Worker → Prop} {p p' : Pool}

/-- A worker keeps the property, whatever becomes of its queue and whatever batch it makes. -/
structure KeepingRule (K : Worker → Prop) : Prop where
  requeued : ∀ {w w'}, K w → w.Requeued w' → K w'
  creates : ∀ {w} (batch : Batch) (now : Int), K w → batch.validatorID = w.validatorID →
    K { w with ackTracker :=
      ((w.ackTracker.trackBatch batch now).recordAck batch.digest w.validatorID).2 }

omit [Crypto] in
theorem turned_set {idx : Nat} {w w' : Worker} (hw : p.workers[idx]? = some w)
    (hK : K w → K w') : p.Turned K { p with workers := p.workers.set idx w' } :=
  ⟨_, forall₂_set (fun _ => id) hw hK, rfl⟩

omit [Crypto] in
theorem turned_map {f : Worker → Worker} (hf : ∀ w ∈ p.workers, K w → K (f w)) :
    p.Turned K { p with workers := p.workers.map f } :=
  ⟨_, List.forall₂_map_right_iff.mpr (List.forall₂_same.mpr hf), rfl⟩

omit [Crypto] in
theorem turned_recordAck {d : Hash} {v : UInt16}
    (hack : ∀ w, K w → K { w with ackTracker := (w.ackTracker.recordAck d v).2 }) :
    p.Turned K (p.recordAck d v) := by
  refine ⟨_, ?_, rfl⟩
  induction p.workers with
  | nil => exact .nil
  | cons w ws ih =>
    rw [recordAckIn]
    split
    · exact .cons (hack w) (List.forall₂_same.mpr fun _ _ => id)
    · exact .cons (hack w) ih

variable {BS TI : Type} [BatchStore BS] [TxIndex TI]

omit [BatchStore BS] in
theorem turned_addTx (hK : KeepingRule K) (p : Pool) (txIndex : TI) (tx : Transaction) :
    p.Turned K (p.addTx txIndex tx).2 := by
  unfold addTx
  split
  · exact .refl p
  · split
    · exact .refl p
    · next w hw => exact turned_set hw fun h => hK.requeued h (w.addTx_requeued _ _ _)

theorem turned_tick (hK : KeepingRule K) (p : Pool) (idx : Nat) (batchStore : BS) (txIndex : TI)
    (now : Int) : p.Turned K (p.tick idx batchStore txIndex now).2.1 := by
  unfold tick
  split
  · exact .refl p
  · next w hw =>
      refine turned_set hw fun h => ?_
      obtain ⟨w', hw', ⟨-, heq⟩ | ⟨batch, hcreator, -, heq⟩⟩ :=
        w.tryCreateBatch_cases batchStore txIndex now
      · rw [heq]
        exact hK.requeued h hw'
      · rw [heq]
        exact hK.requeued (hK.creates batch now h hcreator) (hw'.withTracker _)

/-! ## What holds of every worker -/

/-- A property that the workers of validator `me` with one configuration have when they join,
and keep. -/
structure HiringRule (me : UInt16) (q : Nat) (cfg : WorkerConfig) (P : Worker → Prop) : Prop
    extends KeepingRule P where
  joins : ∀ id round, P { (Worker.new id me cfg q).setRound round with running := true }
  timesOut : ∀ {w} (now : Int), P w → P { w with ackTracker := w.ackTracker.removeTimedOut now }

/-- The same whatever they are configured with. -/
def WorkerRule (me : UInt16) (q : Nat) (P : Worker → Prop) : Prop :=
  ∀ cfg, HiringRule me q cfg P

/-- A pool of workers that all have the property. -/
structure Staffed (me : UInt16) (q : Nat) (P : Worker → Prop) (p : Pool) : Prop where
  validatorID : p.validatorID = me
  quorum : p.quorum = q
  workers : ∀ w ∈ p.workers, P w

/-- A pool with one configuration, of workers that all have the property. -/
structure Hired (me : UInt16) (q : Nat) (c : PoolConfig) (P : Worker → Prop) (p : Pool) :
    Prop extends Staffed me q P p where
  cfg : p.cfg = c

namespace Hired

variable {me : UInt16} {q : Nat} {c : PoolConfig} {P : Worker → Prop}

omit [Crypto] in
theorem new (c : PoolConfig) (txValidator : Option TxValidator) :
    (Pool.new c me q txValidator).Hired me q c P :=
  ⟨⟨rfl, rfl, fun w hw => absurd hw (by simp [Pool.new])⟩, rfl⟩

omit [Crypto] in
theorem turned (h : p.Hired me q c P) (ht : p.Turned P p') : p'.Hired me q c P := by
  obtain ⟨ws, hws, rfl⟩ := ht
  refine ⟨⟨h.validatorID, h.quorum, fun w' hw' => ?_⟩, h.cfg⟩
  obtain ⟨w, hw, himp⟩ := exists_of_mem_right hws w' hw'
  exact himp (h.workers w hw)

theorem addWorkers (h : p.Hired me q c P) (hP : HiringRule me q c.worker P) (n : Nat) :
    (p.addWorkers n).Hired me q c P := by
  induction n generalizing p with
  | zero => exact h
  | succ n ih =>
    refine ih ⟨⟨h.validatorID, h.quorum, fun w hw => ?_⟩, h.cfg⟩
    rcases List.mem_append.mp hw with hold | hnew
    · exact h.workers w hold
    · rw [List.mem_singleton.mp hnew, h.validatorID, h.quorum, h.cfg]
      exact hP.joins _ _

theorem start (h : p.Hired me q c P) (hP : HiringRule me q c.worker P) :
    p.start.Hired me q c P := by
  unfold Pool.start
  split
  · exact h
  · have hrunning : { p with running := true }.Hired me q c P :=
      ⟨⟨h.validatorID, h.quorum, h.workers⟩, h.cfg⟩
    exact hrunning.addWorkers hP _

theorem scaleUp (h : p.Hired me q c P) (hP : HiringRule me q c.worker P) :
    p.scaleUp.Hired me q c P := by
  unfold Pool.scaleUp
  split
  · exact h
  · split
    · exact h
    · exact h.addWorkers hP 1

omit [Crypto] in
theorem updateQuorum (h : p.Hired me q c P) {q' : Nat} {P' : Worker → Prop}
    (hP : ∀ w, P w → P' { w with ackTracker := w.ackTracker.updateQuorum q' }) :
    (p.updateQuorum q').Hired me q' c P' := by
  refine ⟨⟨h.validatorID, rfl, fun w hw => ?_⟩, h.cfg⟩
  obtain ⟨w', hw', rfl⟩ := List.mem_map.mp hw
  exact hP w' (h.workers w' hw')

theorem addTxs (h : p.Hired me q c P) (hP : HiringRule me q c.worker P) (txIndex : TI)
    (txs : List Transaction) : (p.addTxs txIndex txs).Hired me q c P := by
  induction txs generalizing p with
  | nil => exact h
  | cons tx txs ih => exact ih (h.turned (turned_addTx hP.toKeepingRule p txIndex tx))

theorem stop (h : p.Hired me q c P) (batchStore : BS) (txIndex : TI) (now : Int) :
    (p.stop batchStore txIndex now).2.1.Hired me q c P := by
  unfold Pool.stop
  split
  · exact h
  · exact ⟨⟨h.validatorID, h.quorum, fun w hw => absurd hw (by simp)⟩, h.cfg⟩

theorem scaleDown (h : p.Hired me q c P) (hP : HiringRule me q c.worker P) (batchStore : BS)
    (txIndex : TI) (now : Int) :
    (p.scaleDown batchStore txIndex now).2.1.Hired me q c P := by
  unfold Pool.scaleDown
  split
  · exact h
  · split
    · exact h
    · split
      · exact h
      · have hrest : { p with workers := p.workers.dropLast }.Hired me q c P :=
          ⟨⟨h.validatorID, h.quorum, fun w hw => h.workers w (List.mem_of_mem_dropLast hw)⟩,
            h.cfg⟩
        exact hrest.addTxs hP _ _

end Hired

end Pool

end DagMempool
