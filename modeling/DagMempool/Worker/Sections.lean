import DagMempool.Worker.Step

/-!
# The locked sections of a worker

Everything a worker does to its pending pool it does while it holds one lock, in four
places: the end of `AddTx`, the start of `tryCreateBatch`, `requeueTransactions` and
`DrainPending`. Between two of them any other may run. A run is any sequence of these
sections; transactions may be given back that were never taken, which only adds runs.
What a section puts into the heap is its output, in the order it goes in.
-/

namespace DagMempool

inductive PendingSection where
  /-- The validator has answered, with a priority; the index is asked under the lock. -/
  | addTx (tx : Transaction) (priority : Int64) (indexed : Bool)
  | pop
  | requeue (txs : List Transaction)
  | drain

namespace Worker

/-- What `pushPending` puts into the heap. -/
def nextEntry (w : Worker) (tx : Transaction) (priority : Int64) : PendingEntry :=
  { tx, priority, sequence := w.pendingSeq + 1 }

variable [Crypto]

/-- The end of `AddTx`, under the lock. -/
def admitTx (w : Worker) (tx : Transaction) (priority : Int64) (indexed : Bool) :
    Except GoError Unit × Worker :=
  if w.pendingSet.has tx.hash then (.ok (), w)
  else if indexed then (.ok (), w)
  else if w.full tx then (.error .workerBackpressure, w)
  else (.ok (), w.pushPending tx priority)

theorem addTx_eq {TI : Type} [TxIndex TI] (w : Worker) (txIndex : TI)
    (txValidator : Option TxValidator) (tx : Transaction) :
    w.addTx txIndex txValidator tx =
      if !w.running then (.error .notRunning, w)
      else match validateTx txValidator tx with
        | .error cause => (.error (.txValidationFailed cause), w)
        | .ok admission => w.admitTx tx admission.priority (TxIndex.hasTx txIndex tx.hash) :=
  rfl

/-- What the section of `AddTx` puts into the heap. -/
def admitted (w : Worker) (tx : Transaction) (priority : Int64) (indexed : Bool) :
    List PendingEntry :=
  if w.pendingSet.has tx.hash || indexed || w.full tx then [] else [w.nextEntry tx priority]

/-- What `requeueTransactions` puts into the heap. -/
def requeued (w : Worker) : List Transaction → List PendingEntry
  | [] => []
  | tx :: txs =>
    if w.pendingSet.has tx.hash then w.requeued txs
    else if w.full tx then []
    else w.nextEntry tx 0 :: (w.pushPending tx 0).requeued txs

/-- One section. -/
def runSection (w : Worker) : PendingSection → Worker × List PendingEntry
  | .addTx tx priority indexed =>
    ((w.admitTx tx priority indexed).2, w.admitted tx priority indexed)
  | .pop => (w.beginBatch.2, [])
  | .requeue txs => (w.requeueTransactions txs, w.requeued txs)
  | .drain => (w.drainPending.2, [])

/-- The states of a new worker's pending pool, with all that was ever put into it. -/
abbrev PendingReach (ok : Worker → List PendingEntry → PendingSection → Prop) :
    Worker → List PendingEntry → Prop :=
  Run.Reach (fun w => ∃ id validatorID cfg quorum, w = new id validatorID cfg quorum)
    runSection ok

/-! ## What a section does -/

theorem admitTx_cases (w : Worker) (tx : Transaction) (priority : Int64) (indexed : Bool) :
    ((w.admitTx tx priority indexed).2 = w ∧ w.admitted tx priority indexed = []) ∨
      (w.pendingSet.has tx.hash = false ∧ indexed = false ∧ w.full tx = false ∧
        (w.admitTx tx priority indexed).2 = w.pushPending tx priority ∧
        w.admitted tx priority indexed = [w.nextEntry tx priority]) := by
  unfold admitTx admitted
  cases w.pendingSet.has tx.hash with
  | true => exact .inl ⟨rfl, rfl⟩
  | false =>
    cases indexed with
    | true => exact .inl ⟨rfl, rfl⟩
    | false =>
      cases w.full tx with
      | true => exact .inl ⟨rfl, rfl⟩
      | false => exact .inr ⟨rfl, rfl, rfl, rfl, rfl⟩

/-- What is kept by one push is kept by giving transactions back. -/
theorem requeueTransactions_induction {motive : Worker → List PendingEntry → Prop}
    (push : ∀ (w : Worker) (log : List PendingEntry) (tx : Transaction), motive w log →
      w.pendingSet.has tx.hash = false → w.full tx = false →
        motive (w.pushPending tx 0) (log ++ [w.nextEntry tx 0]))
    (txs : List Transaction) {w : Worker} (log : List PendingEntry) (h : motive w log) :
    motive (w.requeueTransactions txs) (log ++ w.requeued txs) := by
  induction txs generalizing w log with
  | nil =>
    rw [requeueTransactions, requeued, List.append_nil]
    exact h
  | cons tx txs ih =>
    rw [requeueTransactions, requeued]
    cases hset : w.pendingSet.has tx.hash with
    | true => exact ih log h
    | false =>
      cases hfull : w.full tx with
      | true =>
        simp only [Bool.false_eq_true, if_false, if_true, List.append_nil]
        exact h
      | false =>
        simp only [Bool.false_eq_true, if_false]
        rw [← List.singleton_append, ← List.append_assoc]
        exact ih _ (push w log tx h hset hfull)

end Worker

end DagMempool
