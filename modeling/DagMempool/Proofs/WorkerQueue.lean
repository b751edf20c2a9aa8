import DagMempool.Worker.Sections

/-!
# The pending queue of a worker

What the operations of a worker do to the transactions it has pending, as hashes and by how often
each hash is there. A batch takes some, and gives back those it could not be made of.
-/

namespace DagMempool

open scoped List

variable [Crypto]

def hashes (txs : List Transaction) : List Hash := txs.map Transaction.hash

theorem count_hashes_cons (tx : Transaction) (txs : List Transaction) (h : Hash) :
    (hashes (tx :: txs)).count h = [tx.hash].count h + (hashes txs).count h := by
  rw [← List.count_append]
  rfl

def Batch.txHashes (b : Batch) : List Hash := hashes b.transactions

/-- The transactions of a batch that is not saved yet. -/
def BatchCreation.taken : Option BatchCreation → List Hash
  | some (.popped txs) => hashes txs
  | _ => []

/-- The transactions of a batch in the making, saved or not. -/
def BatchCreation.hashes : Option BatchCreation → List Hash
  | some (.saved batch) => batch.txHashes
  | c => taken c

namespace Worker

def pendingTxs (w : Worker) : List Transaction := w.pending.toList.map (·.tx)

theorem hashes_pendingTxs (w : Worker) : hashes w.pendingTxs = w.pendingHashes := by
  simp [hashes, pendingTxs, pendingHashes]

variable {w : Worker}

theorem count_pushPending (w : Worker) (tx : Transaction) (priority : Int64) (h : Hash) :
    (w.pushPending tx priority).pendingHashes.count h =
      w.pendingHashes.count h + [tx.hash].count h := by
  rw [(pushPending_perm w tx priority).count_eq, ← List.singleton_append, List.count_append,
    Nat.add_comm]

section AddTx

variable {TI : Type} [TxIndex TI] (txIndex : TI) (txValidator : Option TxValidator)
  (tx : Transaction)

theorem addTx_cases (w : Worker) :
    (w.addTx txIndex txValidator tx).2 = w ∨
      ∃ priority, w.pendingSet.has tx.hash = false ∧
        TxIndex.hasTx txIndex tx.hash = false ∧ w.full tx = false ∧
        (w.addTx txIndex txValidator tx).2 = w.pushPending tx priority := by
  rw [addTx_eq]
  split
  · exact .inl rfl
  · split
    · exact .inl rfl
    · next admission _ =>
        rcases w.admitTx_cases tx admission.priority (TxIndex.hasTx txIndex tx.hash) with
          ⟨h, -⟩ | ⟨hset, hidx, hfull, h, -⟩
        · exact .inl h
        · exact .inr ⟨_, hset, hidx, hfull, h⟩

theorem count_addTx (w : Worker) (h : Hash) :
    (w.addTx txIndex txValidator tx).2.pendingHashes.count h ≤
      w.pendingHashes.count h + [tx.hash].count h := by
  rcases addTx_cases txIndex txValidator tx w with he | ⟨priority, -, -, -, he⟩
  · rw [he]
    exact Nat.le_add_right _ _
  · rw [he, count_pushPending]

end AddTx

theorem popBatch_txs_perm (w : Worker) (maxCount : Nat) (txs : List Transaction)
    (batchBytes : Int64) :
    (w.popBatch maxCount txs batchBytes).1 ++
        (w.popBatch maxCount txs batchBytes).2.2.pendingTxs ~ txs ++ w.pendingTxs := by
  refine popBatch_induction
    (motive := fun txs' _ w' => txs' ++ w'.pendingTxs ~ txs ++ w.pendingTxs)
    (fun w' txs' _ entry rest hpop h => ?_) (.refl _) maxCount
  rw [List.append_assoc]
  exact ((((Heap.pop_perm hpop).map _).symm).append_left txs').trans h

theorem popBatch_perm (w : Worker) (maxCount : Nat) (txs : List Transaction)
    (batchBytes : Int64) :
    hashes (w.popBatch maxCount txs batchBytes).1 ++
        (w.popBatch maxCount txs batchBytes).2.2.pendingHashes ~
      hashes txs ++ w.pendingHashes := by
  have hperm := (popBatch_txs_perm w maxCount txs batchBytes).map Transaction.hash
  rw [List.map_append, List.map_append] at hperm
  rw [← hashes_pendingTxs, ← hashes_pendingTxs]
  exact hperm

theorem beginBatch_perm (w : Worker) :
    BatchCreation.taken (w.beginBatch.1.map .popped) ++ w.beginBatch.2.pendingHashes ~
      w.pendingHashes := by
  unfold beginBatch
  split
  · exact .refl _
  · exact popBatch_perm w _ [] 0

theorem count_requeueTransactions (w : Worker) (txs : List Transaction) (h : Hash) :
    (w.requeueTransactions txs).pendingHashes.count h ≤
      w.pendingHashes.count h + (hashes txs).count h := by
  induction txs generalizing w with
  | nil => exact Nat.le_add_right _ _
  | cons tx txs ih =>
    have hcons := count_hashes_cons tx txs h
    rw [requeueTransactions]
    split
    · have := ih w
      omega
    · split
      · exact Nat.le_add_right _ _
      · have hrest := ih (w.pushPending tx 0)
        rw [count_pushPending] at hrest
        omega

theorem hashes_drainPending (w : Worker) : hashes w.drainPending.1 = w.pendingHashes := by
  unfold drainPending
  split
  · next hsize => simp [hashes, pendingHashes, Array.size_eq_zero_iff.mp hsize]
  · simp [hashes, pendingHashes]

@[simp] theorem pendingHashes_drainPending (w : Worker) :
    w.drainPending.2.pendingHashes = [] := by
  unfold drainPending
  split
  · next hsize => simp [pendingHashes, Array.size_eq_zero_iff.mp hsize]
  · rfl

variable {BS TI : Type} [BatchStore BS] [TxIndex TI]

theorem count_saveTxs (w : Worker) (batchStore : BS) (txs : List Transaction) (now : Int)
    (h : Hash) :
    (w.saveTxs batchStore txs now).2.1.pendingHashes.count h +
        ((w.saveTxs batchStore txs now).1.toList.flatMap Batch.txHashes).count h ≤
      w.pendingHashes.count h + (hashes txs).count h := by
  unfold saveTxs
  dsimp only
  split
  · exact count_requeueTransactions w txs h
  · simp [Batch.txHashes, Batch.new]

theorem Queued.indexBatch (hw : w.Queued) (txIndex : TI) (batch : Batch) (now : Int) :
    (w.indexBatch txIndex batch now).1.Queued :=
  ⟨hw.nodup, hw.has_iff⟩

theorem count_finishBatch (w : Worker) (batchStore : BS) (txIndex : TI) (now : Int)
    (c : Option BatchCreation) (h : Hash) :
    (w.finishBatch batchStore txIndex now c).2.1.pendingHashes.count h +
        ((w.finishBatch batchStore txIndex now c).1.toList.flatMap Batch.txHashes).count h ≤
      w.pendingHashes.count h + (BatchCreation.taken c).count h := by
  match c with
  | none => exact Nat.le_refl _
  | some (.saved batch) => exact Nat.le_refl _
  | some (.popped txs) =>
    have hsaved := count_saveTxs w batchStore txs now h
    dsimp only [finishBatch]
    split
    · next hnone =>
        rw [hnone] at hsaved
        exact hsaved
    · next batch hsome =>
        rw [hsome] at hsaved
        exact hsaved

theorem count_stop (w : Worker) (batchStore : BS) (txIndex : TI) (now : Int) (h : Hash) :
    ((w.stop batchStore txIndex now).1.toList.flatMap Batch.txHashes).count h ≤
      w.pendingHashes.count h := by
  unfold stop
  split
  · exact Nat.zero_le _
  · dsimp only
    rw [tryCreateBatch_eq]
    generalize hw' : { w with running := false } = w'
    have hpending : w'.pendingHashes = w.pendingHashes := by
      rw [← hw']
      rfl
    have hfinish := count_finishBatch w'.beginBatch.2 batchStore txIndex now
      (w'.beginBatch.1.map .popped) h
    have hbegin := (beginBatch_perm w').count_eq h
    rw [List.count_append, hpending] at hbegin
    omega

end Worker

end DagMempool
