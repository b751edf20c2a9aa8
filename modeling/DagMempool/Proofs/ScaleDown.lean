import DagMempool.Proofs.PoolRuns
import DagMempool.Worker.Ideal

/-!
# What becomes of the transactions of a removed worker

`ScaleDown` routes what the removed worker had pending to the others and does not look
at their answers. Routing splits the transactions by worker, and each worker takes its
share in the order of the heap they come from, as long as the validator admits them and
they fit; so nothing is lost exactly if, worker by worker, there is room for those that
are not already somewhere else.
-/

namespace DagMempool

section

variable [Crypto]
variable {h : Hash}

namespace Worker

variable {TI : Type} [TxIndex TI]

def addAll (w : Worker) (txIndex : TI) (txValidator : Option TxValidator)
    (txs : List Transaction) : Worker :=
  txs.foldl (fun w tx => (w.addTx txIndex txValidator tx).2) w

theorem addAll_cons (w : Worker) (txIndex : TI) (txValidator : Option TxValidator)
    (tx : Transaction) (txs : List Transaction) :
    w.addAll txIndex txValidator (tx :: txs) =
      (w.addTx txIndex txValidator tx).2.addAll txIndex txValidator txs := rfl

/-- The transactions that neither the worker nor the index knows. -/
def newcomers (w : Worker) (txIndex : TI) (txs : List Transaction) : List Transaction :=
  txs.filter fun tx => !w.pendingSet.has tx.hash && !TxIndex.hasTx txIndex tx.hash

/-- The validator admits the transaction, and a worker that has `count` transactions of
`bytes` pending has room for it. -/
def Fits (cfg : WorkerConfig) (txValidator : Option TxValidator) (count : Nat)
    (bytes : Int64) (tx : Transaction) : Prop :=
  (validateTx txValidator tx).isOk = true ∧ count < cfg.maxPendingTxs ∧
    bytes + Int64.ofNat tx.size ≤ cfg.maxPendingBytes
deriving Decidable

/-- One after the other, the transactions fit, apart from those that are elsewhere. -/
def Room (cfg : WorkerConfig) (txValidator : Option TxValidator) (elsewhere : Hash → Prop) :
    Nat → Int64 → List Transaction → Prop
  | _, _, [] => True
  | count, bytes, tx :: txs =>
    if Fits cfg txValidator count bytes tx then
      Room cfg txValidator elsewhere (count + 1) (bytes + Int64.ofNat tx.size) txs
    else elsewhere tx.hash ∧ Room cfg txValidator elsewhere count bytes txs

variable {w : Worker} {txIndex : TI} {txValidator : Option TxValidator} {tx : Transaction}

theorem addTx_known (hknown : w.pendingSet.has tx.hash = true ∨
    TxIndex.hasTx txIndex tx.hash = true) : (w.addTx txIndex txValidator tx).2 = w := by
  rcases w.addTx_cases txIndex txValidator tx with h | ⟨_, hset, hidx, -⟩
  · exact h
  · rw [hset, hidx] at hknown
    exact absurd hknown (by simp)

theorem addTx_new (hrunning : w.running = true) (hset : w.pendingSet.has tx.hash = false)
    (hidx : TxIndex.hasTx txIndex tx.hash = false) :
    (∃ priority, Fits w.cfg txValidator w.pending.size w.pendingBytes tx ∧
      (w.addTx txIndex txValidator tx).2 = w.pushPending tx priority) ∨
    ¬ Fits w.cfg txValidator w.pending.size w.pendingBytes tx ∧
      (w.addTx txIndex txValidator tx).2 = w := by
  unfold addTx Fits
  rw [if_neg (by simp [hrunning])]
  cases hv : validateTx txValidator tx with
  | error cause => exact .inr ⟨by simp [Except.isOk, Except.toBool], rfl⟩
  | ok admission =>
    dsimp only
    rw [if_neg (by simp [hset]), if_neg (by simp [hidx])]
    split
    · next hfull =>
        refine .inr ⟨fun hfits => ?_, rfl⟩
        rw [(full_eq_false w tx).mpr hfits.2] at hfull
        cases hfull
    · next hfull =>
        exact .inl ⟨_, ⟨rfl, (full_eq_false w tx).mp (by simpa using hfull)⟩, rfl⟩

theorem mem_addTx_of_mem (hh : h ∈ w.pendingHashes) :
    h ∈ (w.addTx txIndex txValidator tx).2.pendingHashes := by
  rcases w.addTx_cases txIndex txValidator tx with he | ⟨priority, -, -, -, he⟩
  · rw [he]
    exact hh
  · rw [he, (pushPending_perm w tx priority).mem_iff]
    exact List.mem_cons_of_mem _ hh

variable {txs : List Transaction}

theorem mem_addAll_of_mem (hh : h ∈ w.pendingHashes) :
    h ∈ (w.addAll txIndex txValidator txs).pendingHashes := by
  induction txs generalizing w with
  | nil => exact hh
  | cons tx txs ih => exact ih (mem_addTx_of_mem hh)

theorem mem_of_mem_addAll (hh : h ∈ (w.addAll txIndex txValidator txs).pendingHashes) :
    h ∈ w.pendingHashes ∨ h ∈ hashes txs := by
  induction txs generalizing w with
  | nil => exact .inl hh
  | cons tx txs ih =>
    rw [addAll_cons] at hh
    rcases ih hh with hin | hin
    · rcases w.addTx_cases txIndex txValidator tx with he | ⟨priority, -, -, -, he⟩
      · rw [he] at hin
        exact .inl hin
      · rw [he, (pushPending_perm w tx priority).mem_iff, List.mem_cons] at hin
        rcases hin with rfl | hin
        · exact .inr List.mem_cons_self
        · exact .inl hin
    · exact .inr (List.mem_cons_of_mem _ hin)

theorem newcomers_pushPending (priority : Int64) (hfree : tx.hash ∉ hashes txs) :
    (w.pushPending tx priority).newcomers txIndex txs = w.newcomers txIndex txs := by
  refine List.filter_congr fun tx' htx' => ?_
  have hne : tx'.hash ≠ tx.hash := fun heq => hfree (heq ▸ List.mem_map_of_mem htx')
  have hsame : (w.pushPending tx priority).pendingSet.has tx'.hash =
      w.pendingSet.has tx'.hash := by
    rw [Bool.eq_iff_iff]
    change (w.pendingSet.set tx.hash ()).has tx'.hash = true ↔ _
    rw [GoMap.has_set]
    exact ⟨fun h => h.resolve_left hne, .inr⟩
  rw [hsame]

/-- A worker given transactions keeps those that are not elsewhere exactly if there is
room for the ones it and the index do not know. -/
theorem addAll_keeps_iff (txIndex : TI) (txValidator : Option TxValidator)
    (elsewhere : Hash → Prop) (hw : w.Queued) (hrunning : w.running = true)
    (hnodup : (hashes txs).Nodup) :
    (∀ tx ∈ txs, tx.hash ∈ (w.addAll txIndex txValidator txs).pendingHashes ∨
      TxIndex.hasTx txIndex tx.hash = true ∨ elsewhere tx.hash) ↔
    Room w.cfg txValidator elsewhere w.pending.size w.pendingBytes
      (w.newcomers txIndex txs) := by
  induction txs generalizing w with
  | nil => simp [newcomers, Room]
  | cons tx txs ih =>
    obtain ⟨hfree, hrest⟩ := List.nodup_cons.mp hnodup
    rw [List.forall_mem_cons, addAll_cons]
    by_cases hknown : w.pendingSet.has tx.hash = true ∨ TxIndex.hasTx txIndex tx.hash = true
    · have hnew : w.newcomers txIndex (tx :: txs) = w.newcomers txIndex txs := by
        rcases hknown with hk | hk <;> simp [newcomers, hk]
      rw [addTx_known hknown, hnew, ← ih hw hrunning hrest]
      refine ⟨fun h => h.2, fun h => ⟨?_, h⟩⟩
      exact hknown.imp (fun hk => mem_addAll_of_mem ((hw.has_iff _).mp hk)) .inl
    · simp only [not_or, Bool.not_eq_true] at hknown
      obtain ⟨hset, hidx⟩ := hknown
      have hnew : w.newcomers txIndex (tx :: txs) = tx :: w.newcomers txIndex txs := by
        simp [newcomers, hset, hidx]
      have hout : tx.hash ∉ w.pendingHashes := fun hmem => by
        rw [(hw.has_iff _).mpr hmem] at hset
        cases hset
      rw [hnew, Room]
      rcases addTx_new hrunning hset hidx with ⟨priority, hfits, he⟩ | ⟨hfits, he⟩
      · have hpushed := ih (hw.pushPending hset priority) hrunning hrest
        rw [newcomers_pushPending priority hfree] at hpushed
        rw [he, if_pos hfits, hpushed]
        have hin : tx.hash ∈ (w.pushPending tx priority).pendingHashes :=
          (pushPending_perm w tx priority).mem_iff.mpr List.mem_cons_self
        have hsize : (w.pushPending tx priority).pending.size = w.pending.size + 1 :=
          Heap.size_push _ _
        rw [hsize]
        exact and_iff_right (.inl (mem_addAll_of_mem hin))
      · -- The refused transaction is pending neither now nor after the others.
        have hgone : tx.hash ∉ (w.addAll txIndex txValidator txs).pendingHashes :=
          fun hmem => (mem_of_mem_addAll hmem).elim hout hfree
        rw [he, if_neg hfits, ih hw hrunning hrest, hidx]
        simp [hgone]

end Worker

/-! ## Routing splits the transactions by worker

Who a transaction is routed to depends on its hash and on the number of workers, so each worker is
given its share in the order of the whole. -/

namespace Pool

variable {TI : Type} [TxIndex TI] {p : Pool} {txIndex : TI}

/-- The share of the worker at a position. -/
def routedTo (p : Pool) (i : Nat) (txs : List Transaction) : List Transaction :=
  txs.filter fun tx => p.route tx = i

theorem addTx_of_running (hrunning : p.running = true) (tx : Transaction) :
    (p.addTx txIndex tx).2 =
      { p with workers := p.workers.modify (p.route tx) fun w =>
          (w.addTx txIndex p.txValidator tx).2 } := by
  unfold addTx
  rw [if_neg (by simp [hrunning]), List.modify_eq_set_getElem?]
  cases p.workers[p.route tx]? with
  | none => rfl
  | some w => rfl

theorem addTxs_getElem? (hrunning : p.running = true) (txs : List Transaction) (i : Nat) :
    (p.addTxs txIndex txs).workers[i]? =
      p.workers[i]?.map fun w => w.addAll txIndex p.txValidator (p.routedTo i txs) := by
  induction txs generalizing p with
  | nil => exact (Option.map_id_apply).symm
  | cons tx txs ih =>
    generalize hp' : (p.addTx txIndex tx).2 = p'
    have hstep : p.addTxs txIndex (tx :: txs) = p'.addTxs txIndex txs := by
      rw [← hp']
      rfl
    rw [addTx_of_running hrunning] at hp'
    have hlen : p'.workers.length = p.workers.length := by
      rw [← hp']
      exact List.length_modify _ _ _
    have hroute : p'.routedTo i txs = p.routedTo i txs := by
      have hsame : p'.route = p.route := funext fun tx' => by rw [route, route, hlen]
      unfold routedTo
      rw [hsame]
    rw [hstep, ih (by rw [← hp']; exact hrunning), hroute, ← hp']
    simp only [List.getElem?_modify, Option.map_eq_map, Option.map_map]
    refine congrArg (Option.map · _) (funext fun w => ?_)
    by_cases hi : p.route tx = i
    · simp [routedTo, hi, Worker.addAll_cons]
    · simp [routedTo, hi]

theorem mem_pendingHashes :
    h ∈ p.pendingHashes ↔
      ∃ (i : Nat) (w : Worker), p.workers[i]? = some w ∧ h ∈ w.pendingHashes := by
  unfold pendingHashes
  rw [List.mem_flatMap]
  simp only [List.mem_iff_getElem? (l := p.workers)]
  constructor
  · rintro ⟨w, ⟨i, hi⟩, hh⟩
    exact ⟨i, w, hi, hh⟩
  · rintro ⟨i, w, hi, hh⟩
    exact ⟨w, ⟨i, hi⟩, hh⟩

theorem mem_addTxs_of_mem (hrunning : p.running = true) {txs : List Transaction}
    (hh : h ∈ p.pendingHashes) : h ∈ (p.addTxs txIndex txs).pendingHashes := by
  obtain ⟨i, w, hi, hh⟩ := mem_pendingHashes.mp hh
  refine mem_pendingHashes.mpr ⟨i, w.addAll txIndex p.txValidator (p.routedTo i txs), ?_,
    Worker.mem_addAll_of_mem hh⟩
  rw [addTxs_getElem? hrunning, hi]
  rfl

theorem mem_addTxs_iff (hrunning : p.running = true) {txs : List Transaction}
    {tx : Transaction} {w : Worker} (hw : p.workers[p.route tx]? = some w) :
    tx.hash ∈ (p.addTxs txIndex txs).pendingHashes ↔
      tx.hash ∈ (w.addAll txIndex p.txValidator (p.routedTo (p.route tx) txs)).pendingHashes ∨
        tx.hash ∈ (p.workers.eraseIdx (p.route tx)).flatMap Worker.pendingHashes := by
  constructor
  · intro hh
    obtain ⟨j, w', hj, hh⟩ := mem_pendingHashes.mp hh
    rw [addTxs_getElem? hrunning, Option.map_eq_some_iff] at hj
    obtain ⟨w₀, hj, rfl⟩ := hj
    by_cases hjr : j = p.route tx
    · subst hjr
      obtain rfl : w = w₀ := Option.some.inj (hw.symm.trans hj)
      exact .inl hh
    · rcases Worker.mem_of_mem_addAll hh with hold | hnew
      · exact .inr (List.mem_flatMap.mpr
          ⟨w₀, List.mem_eraseIdx_iff_getElem?.mpr ⟨j, hjr, hj⟩, hold⟩)
      · -- A transaction with this hash is routed as `tx` is, not to `j`.
        obtain ⟨tx', htx', heq⟩ := List.mem_map.mp hnew
        have hroute : p.route tx' = j := by simpa using (List.mem_filter.mp htx').2
        refine absurd ?_ hjr
        rw [← hroute, route, route, heq]
  · rintro (hown | hother)
    · refine mem_pendingHashes.mpr ⟨p.route tx, _, ?_, hown⟩
      rw [addTxs_getElem? hrunning, hw]
      rfl
    · obtain ⟨w', hw', hh⟩ := List.mem_flatMap.mp hother
      exact mem_addTxs_of_mem hrunning (List.mem_flatMap.mpr ⟨w', List.mem_of_mem_eraseIdx hw', hh⟩)

theorem addTxs_keeps_iff (txIndex : TI) (txs : List Transaction) (known : Hash → Prop)
    (hrunning : p.running = true) (hqueued : ∀ w ∈ p.workers, w.Queued)
    (hworkers : ∀ w ∈ p.workers, w.running = true) (hnodup : (hashes txs).Nodup) :
    (∀ h ∈ hashes txs, h ∈ (p.addTxs txIndex txs).pendingHashes ∨ known h ∨
      TxIndex.hasTx txIndex h = true) ↔
    (p.workers = [] → ∀ h ∈ hashes txs, known h ∨ TxIndex.hasTx txIndex h = true) ∧
    ∀ (i : Nat) (w : Worker), p.workers[i]? = some w →
      Worker.Room w.cfg p.txValidator
        (fun h => known h ∨ h ∈ (p.workers.eraseIdx i).flatMap Worker.pendingHashes)
        w.pending.size w.pendingBytes (w.newcomers txIndex (p.routedTo i txs)) := by
  have hdistinct : ∀ i, (hashes (p.routedTo i txs)).Nodup := fun i =>
    hnodup.sublist (List.filter_sublist.map _)
  have hshare := fun (i : Nat) (w : Worker) (hw : p.workers[i]? = some w) =>
    Worker.addAll_keeps_iff txIndex p.txValidator
      (fun h => known h ∨ h ∈ (p.workers.eraseIdx i).flatMap Worker.pendingHashes)
      (hqueued w (List.mem_of_getElem? hw)) (hworkers w (List.mem_of_getElem? hw)) (hdistinct i)
  constructor
  · intro hkept
    refine ⟨fun hnil h hh => ?_, fun i w hw => (hshare i w hw).mp fun tx htx => ?_⟩
    · refine (hkept h hh).resolve_left fun hmem => ?_
      obtain ⟨i, w, hw, -⟩ := mem_pendingHashes.mp hmem
      rw [addTxs_getElem? hrunning, hnil] at hw
      cases hw
    · obtain ⟨hin, hroute⟩ := List.mem_filter.mp htx
      obtain rfl : p.route tx = i := by simpa using hroute
      rcases hkept tx.hash (List.mem_map_of_mem hin) with hmem | hknown | hidx
      · rcases (mem_addTxs_iff hrunning hw).mp hmem with hown | hother
        · exact .inl hown
        · exact .inr (.inr (.inr hother))
      · exact .inr (.inr (.inl hknown))
      · exact .inr (.inl hidx)
  · rintro ⟨hnone, hroom⟩ h hh
    by_cases hnil : p.workers = []
    · exact .inr (hnone hnil h hh)
    · obtain ⟨tx, htx, rfl⟩ := List.mem_map.mp hh
      have hlt : p.route tx < p.workers.length :=
        Nat.mod_lt _ (List.length_pos_of_ne_nil hnil)
      have hw : p.workers[p.route tx]? = some p.workers[p.route tx] :=
        List.getElem?_eq_getElem hlt
      have hin : tx ∈ p.routedTo (p.route tx) txs := List.mem_filter.mpr ⟨htx, by simp⟩
      rcases (hshare _ _ hw).mpr (hroom _ _ hw) tx hin with hown | hidx | hknown | hother
      · exact .inl ((mem_addTxs_iff hrunning hw).mpr (.inl hown))
      · exact .inr (.inr hidx)
      · exact .inr (.inl hknown)
      · exact .inl ((mem_addTxs_iff hrunning hw).mpr (.inr hother))

end Pool

namespace PoolSystem

variable {BS TI : Type} [BatchStore BS] [TxIndex TI]

/-- For each remaining worker there is room for its share of what the removed worker had
pending, apart from what is in the index or in a batch once the removed worker has
stopped, or pending in another worker; without a remaining worker, there is none. -/
def RoomForRemoved (s : PoolSystem BS TI) (removed : Worker) (now : Int) : Prop :=
  let stopped := s.stopRemoved removed now
  (s.remaining.workers = [] → ∀ h ∈ removed.pendingHashes,
    h ∈ stopped.1.flatMap Batch.txHashes ∨ TxIndex.hasTx stopped.2.2 h = true) ∧
  ∀ (i : Nat) (w : Worker), s.remaining.workers[i]? = some w →
    Worker.Room w.cfg s.remaining.txValidator
      (fun h => h ∈ stopped.1.flatMap Batch.txHashes ∨
        h ∈ (s.remaining.workers.eraseIdx i).flatMap Worker.pendingHashes)
      w.pending.size w.pendingBytes
      (w.newcomers stopped.2.2 (s.remaining.routedTo i removed.drainPending.1))

variable {s : PoolSystem BS TI} {removed : Worker}

omit [BatchStore BS] [TxIndex TI] in
theorem mem_pendingHashes_iff (hlast : s.pool.workers.getLast? = some removed) :
    h ∈ s.pool.pendingHashes ↔
      h ∈ s.remaining.pendingHashes ∨ h ∈ removed.pendingHashes := by
  have hl : s.remaining.workers ++ [removed] = s.pool.workers :=
    List.dropLast_append_getLast? removed hlast
  unfold Pool.pendingHashes
  rw [← hl, List.flatMap_append, List.mem_append, List.flatMap_singleton]

/-- In every state a run reaches, a `ScaleDown` that removes a worker loses no pending
transaction exactly if there is room for those of the removed worker. -/
theorem scaleDown_keeps_pending_iff {log : List Batch}
    (hreach : Run.Reach Started step (fun _ _ _ => True) s log)
    (hrunning : s.pool.running = true)
    (hmin : s.pool.cfg.minWorkers < s.pool.workers.length)
    (hlast : s.pool.workers.getLast? = some removed) (now : Int) :
    (∀ h ∈ s.pool.pendingHashes,
      h ∈ (s.scaleDown now).1.pool.pendingHashes ∨
        (∃ b ∈ (s.scaleDown now).2, h ∈ b.txHashes) ∨
        TxIndex.hasTx (s.scaleDown now).1.txIndex h = true) ↔
    s.RoomForRemoved removed now := by
  have hs : s.Sound := hreach.invariant (I := fun s _ => s.Sound) (fun _ h => h.sound)
    fun _ _ e hs _ => hs.step e
  have hmem := List.mem_of_getLast? hlast
  have hnodup : (hashes removed.drainPending.1).Nodup := by
    rw [removed.hashes_drainPending]
    exact (hs.queued removed hmem).nodup
  have hkeeps := Pool.addTxs_keeps_iff (p := s.remaining)
    (s.stopRemoved removed now).2.2 removed.drainPending.1
    (fun h => h ∈ (s.stopRemoved removed now).1.flatMap Batch.txHashes) hrunning
    (fun w hw => hs.queued w (List.mem_of_mem_dropLast hw))
    (fun w hw => hs.running w (List.mem_of_mem_dropLast hw)) hnodup
  rw [removed.hashes_drainPending] at hkeeps
  rw [scaleDown_of hrunning hmin hlast]
  refine Iff.trans ?_ hkeeps
  simp only [mem_pendingHashes_iff hlast, ← List.mem_flatMap]
  constructor
  · exact fun h d hd => h d (.inr hd)
  · rintro h d (hd | hd)
    · exact .inl (Pool.mem_addTxs_of_mem (p := s.remaining) hrunning hd)
    · exact h d hd

end PoolSystem

end

section

attribute [local instance] idealCrypto

/-- One transaction is pending in each of two workers. -/
def oneEach : List PoolEvent := [.addTx [1], .scaleUp, .addTx longTx]

theorem reach_oneEach (maxPendingTxs : Nat) :
    Run.Reach PoolSystem.Started PoolSystem.step (fun _ _ _ => True)
      (idealPoolExec maxPendingTxs oneEach).1 (idealPoolExec maxPendingTxs oneEach).2 :=
  reach_idealPoolExec (started_idealPool maxPendingTxs)
    (Run.AllOk.of_forall (fun _ _ _ => trivial) _ _ _)

/-- With room for one transaction in a worker, the one of the removed worker is nowhere
afterwards. -/
theorem pending_lost_with_worker :
    ∃ (s : IdealPool) (log : List Batch),
      Run.Reach PoolSystem.Started PoolSystem.step (fun _ _ _ => True) s log ∧
      s.pool.running = true ∧ s.pool.cfg.minWorkers < s.pool.workers.length ∧
      longTx.hash ∈ s.pool.pendingHashes ∧
      longTx.hash ∉ (s.scaleDown 4).1.pool.pendingHashes ∧ (s.scaleDown 4).2 = [] ∧
      TxIndex.hasTx (s.scaleDown 4).1.txIndex longTx.hash = false :=
  ⟨_, _, reach_oneEach 1, by decide +kernel⟩

theorem scaleDown_keeps_pending_iff_roomy :
    ∃ (s : IdealPool) (log : List Batch) (removed : Worker),
      Run.Reach PoolSystem.Started PoolSystem.step (fun _ _ _ => True) s log ∧
      s.pool.running = true ∧ s.pool.cfg.minWorkers < s.pool.workers.length ∧
      s.pool.workers.getLast? = some removed ∧
      (s.scaleDown 4).1.pool.pendingHashes.Perm [Transaction.hash [1], longTx.hash] ∧
      s.RoomForRemoved removed 4 := by
  have hreach := reach_oneEach 2
  have hstate : (idealPoolExec 2 oneEach).1.pool.running = true ∧
      (idealPoolExec 2 oneEach).1.pool.cfg.minWorkers <
        (idealPoolExec 2 oneEach).1.pool.workers.length := by decide +kernel
  have hlast : (idealPoolExec 2 oneEach).1.pool.workers.getLast?.isSome = true := by
    decide +kernel
  have hafter : ((idealPoolExec 2 oneEach).1.scaleDown 4).1.pool.pendingHashes.Perm
      [Transaction.hash [1], longTx.hash] := by decide +kernel
  have hbefore : (idealPoolExec 2 oneEach).1.pool.pendingHashes =
      [Transaction.hash [1], longTx.hash] := by decide +kernel
  generalize idealPoolExec 2 oneEach = run at hreach hstate hlast hafter hbefore
  obtain ⟨removed, hlast⟩ := Option.isSome_iff_exists.mp hlast
  exact ⟨run.1, run.2, removed, hreach, hstate.1, hstate.2, hlast, hafter,
    (PoolSystem.scaleDown_keeps_pending_iff hreach hstate.1 hstate.2 hlast 4).mp
      fun h hh => .inl (hafter.mem_iff.mpr (hbefore ▸ hh))⟩

end

end DagMempool
