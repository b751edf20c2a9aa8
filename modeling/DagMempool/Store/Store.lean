import DagMempool.Types.Certificate

/-!
# The storage interfaces

The node is written against three interfaces, and so is its model: a batch
store, a certificate store and a transaction index are any types with these
operations, each of which may fail and which answer from an explicit state. A
store that is on disk and may refuse a write is an instance like any other.

`LawfulBatchStore` and `LawfulCertificateStore` say what an implementation has to
guarantee for what is stored to be what was saved. A store that keeps these laws
may still fail at any operation.
-/

namespace DagMempool

theorem toOption_eq_some {ε α : Type} {e : Except ε α} {a : α} :
    e.toOption = some a ↔ e = .ok a := by
  cases e with
  | error err => simp [Except.toOption]
  | ok b => simp [Except.toOption]

class BatchStore (S : Type) where
  saveBatch : S → Batch → Except GoError Unit × S
  getBatch : S → Hash → Except GoError Batch
  hasBatch : S → Hash → Bool
  getBatchesByRound : S → UInt64 → Except GoError (List Batch)
  deleteBatchesBefore : S → UInt64 → Except GoError Unit × S

class CertificateStore (S : Type) where
  saveCertificate : S → Certificate → Except GoError Unit × S
  getCertificate : S → Hash → Except GoError Certificate
  hasCertificate : S → Hash → Bool
  getCertificatesByRound : S → UInt64 → Except GoError (List Certificate)
  getCertificateForValidator : S → UInt64 → UInt16 → Except GoError Certificate
  deleteCertificatesBefore : S → UInt64 → Except GoError Unit × S
  highestRound : S → UInt64

class TxIndex (S : Type) where
  addTx : S → Hash → Hash → Except GoError Unit × S
  addBatch : S → Batch → Except GoError Unit × S
  getBatchForTx : S → Hash → Except GoError Hash
  hasTx : S → Hash → Bool
  removeTxsForBatch : S → Hash → Except GoError Unit × S
  /-- The batch store is there for implementations that keep no rounds. -/
  pruneOlderThan : {B : Type} → [BatchStore B] → S → UInt64 → B → Except GoError Nat × S

/-- `Close`, which all three interfaces have. -/
class Closer (S : Type) where
  close : S → Except GoError Unit × S

/-- A store on disk: the constructor, of the directory that a closed store has left. -/
class Reopens (S : Type) where
  reopen : S → S

/-! ## Laws

What a batch store holds is what `GetBatch` returns. Saving adds at most the
batch saved, under its own digest, and a digest that is taken keeps its batch;
deleting before a round removes batches of lower rounds only. -/

class LawfulBatchStore (S : Type) [BatchStore S] : Prop where
  hasBatch_iff : ∀ {s : S} {d : Hash},
    BatchStore.hasBatch s d = true ↔ ∃ b, BatchStore.getBatch s d = .ok b
  digest_eq : ∀ {s : S} {d : Hash} {b : Batch},
    BatchStore.getBatch s d = .ok b → b.digest = d
  getBatch_save : ∀ {s : S} {b b' : Batch} {d : Hash},
    BatchStore.getBatch (BatchStore.saveBatch s b).2 d = .ok b' →
      BatchStore.getBatch s d = .ok b' ∨
        b' = b ∧ ∀ b'', BatchStore.getBatch s d ≠ .ok b''
  save_keeps : ∀ {s : S} {b b' : Batch} {d : Hash},
    BatchStore.getBatch s d = .ok b' →
      BatchStore.getBatch (BatchStore.saveBatch s b).2 d = .ok b'
  byRound : ∀ {s : S} {r : UInt64} {bs : List Batch} {b : Batch},
    BatchStore.getBatchesByRound s r = .ok bs →
      (b ∈ bs ↔ BatchStore.getBatch s b.digest = .ok b ∧ b.round = r)
  getBatch_delete : ∀ {s : S} {r : UInt64} {d : Hash} {b : Batch},
    BatchStore.getBatch (BatchStore.deleteBatchesBefore s r).2 d = .ok b →
      BatchStore.getBatch s d = .ok b
  delete_keeps : ∀ {s : S} {r : UInt64} {d : Hash} {b : Batch},
    BatchStore.getBatch s d = .ok b → r ≤ b.round →
      BatchStore.getBatch (BatchStore.deleteBatchesBefore s r).2 d = .ok b
  delete_removes : ∀ {s : S} {r : UInt64} {d : Hash} {b : Batch},
    (BatchStore.deleteBatchesBefore s r).1 = .ok () →
      BatchStore.getBatch (BatchStore.deleteBatchesBefore s r).2 d = .ok b → r ≤ b.round

/-- A store whose answer to a save is the truth: what was saved is there, and a save that
was refused changed nothing. -/
class ReportsSaves (S : Type) [BatchStore S] : Prop where
  has_of_ok : ∀ {s : S} {b : Batch}, (BatchStore.saveBatch s b).1 = .ok () →
    BatchStore.hasBatch (BatchStore.saveBatch s b).2 b.digest = true
  eq_of_error : ∀ {s : S} {b : Batch} {err : GoError},
    (BatchStore.saveBatch s b).1 = .error err → (BatchStore.saveBatch s b).2 = s

/-- A store in which a save takes nothing away, whether it succeeds or not. -/
class KeepsBatches (S : Type) [BatchStore S] : Prop where
  has_save : ∀ {s : S} {d : Hash} (b : Batch), BatchStore.hasBatch s d = true →
    BatchStore.hasBatch (BatchStore.saveBatch s b).2 d = true
  get_save : ∀ {s : S} {d : Hash} {b' : Batch} (b : Batch), BatchStore.getBatch s d = .ok b' →
    BatchStore.getBatch (BatchStore.saveBatch s b).2 d = .ok b'

instance {S : Type} [BatchStore S] [LawfulBatchStore S] : KeepsBatches S where
  has_save _ h := by
    obtain ⟨b', hb'⟩ := LawfulBatchStore.hasBatch_iff.mp h
    exact LawfulBatchStore.hasBatch_iff.mpr ⟨b', LawfulBatchStore.save_keeps hb'⟩
  get_save _ h := LawfulBatchStore.save_keeps h

/-- Stores that have a batch only once it was saved, whatever is deleted. -/
class KnowsSavedBatches (S : Type) [BatchStore S] : Prop where
  has_save : ∀ {s : S} {b : Batch} {d : Hash},
    BatchStore.hasBatch (BatchStore.saveBatch s b).2 d = true →
      BatchStore.hasBatch s d = true ∨ d = b.digest
  has_delete : ∀ {s : S} {r : UInt64} {d : Hash},
    BatchStore.hasBatch (BatchStore.deleteBatchesBefore s r).2 d = true →
      BatchStore.hasBatch s d = true

instance {S : Type} [BatchStore S] [LawfulBatchStore S] : KnowsSavedBatches S where
  has_save h := by
    obtain ⟨b', hb'⟩ := LawfulBatchStore.hasBatch_iff.mp h
    rcases LawfulBatchStore.getBatch_save hb' with hold | ⟨rfl, -⟩
    · exact .inl (LawfulBatchStore.hasBatch_iff.mpr ⟨b', hold⟩)
    · exact .inr (LawfulBatchStore.digest_eq hb').symm
  has_delete h := by
    obtain ⟨b, hb⟩ := LawfulBatchStore.hasBatch_iff.mp h
    exact LawfulBatchStore.hasBatch_iff.mpr ⟨b, LawfulBatchStore.getBatch_delete hb⟩

class LawfulCertificateStore (S : Type) [CertificateStore S] : Prop where
  hasCertificate_iff : ∀ {s : S} {d : Hash},
    CertificateStore.hasCertificate s d = true ↔
      ∃ c, CertificateStore.getCertificate s d = .ok c
  digest_eq : ∀ {s : S} {d : Hash} {c : Certificate},
    CertificateStore.getCertificate s d = .ok c → c.digest = d
  getCertificate_save : ∀ {s : S} {c c' : Certificate} {d : Hash},
    CertificateStore.getCertificate (CertificateStore.saveCertificate s c).2 d = .ok c' →
      CertificateStore.getCertificate s d = .ok c' ∨ c' = c
  save_keeps : ∀ {s : S} {c c' : Certificate} {d : Hash},
    CertificateStore.getCertificate s d = .ok c' →
      CertificateStore.getCertificate (CertificateStore.saveCertificate s c).2 d = .ok c'
  getCertificate_delete : ∀ {s : S} {r : UInt64} {d : Hash} {c : Certificate},
    CertificateStore.getCertificate (CertificateStore.deleteCertificatesBefore s r).2 d = .ok c →
      CertificateStore.getCertificate s d = .ok c

class KeepsCertificates (S : Type) [CertificateStore S] : Prop where
  has_save : ∀ {s : S} {d : Hash} (c : Certificate), CertificateStore.hasCertificate s d = true →
    CertificateStore.hasCertificate (CertificateStore.saveCertificate s c).2 d = true

instance {S : Type} [CertificateStore S] [LawfulCertificateStore S] : KeepsCertificates S where
  has_save _ h := by
    obtain ⟨c', hc'⟩ := LawfulCertificateStore.hasCertificate_iff.mp h
    exact LawfulCertificateStore.hasCertificate_iff.mpr
      ⟨c', LawfulCertificateStore.save_keeps hc'⟩

/-- What was stored is there again when the store was closed and is opened once more. -/
class PersistsBatches (S : Type) [BatchStore S] [Closer S] [Reopens S] : Prop where
  get_reopen : ∀ {s : S} {d : Hash} {b : Batch}, BatchStore.getBatch s d = .ok b →
    BatchStore.getBatch (Reopens.reopen (Closer.close s).2) d = .ok b

class PersistsCertificates (S : Type) [CertificateStore S] [Closer S] [Reopens S] : Prop where
  byRound_reopen : ∀ {s : S} {r : UInt64} {cs : List Certificate},
    CertificateStore.getCertificatesByRound s r = .ok cs →
      CertificateStore.getCertificatesByRound (Reopens.reopen (Closer.close s).2) r = .ok cs

/-- Listing by round answers with stored certificates of that round. -/
class LawfulCertificateRounds (S : Type) [CertificateStore S] : Prop where
  byRound : ∀ {s : S} {r : UInt64} {cs : List Certificate} {c : Certificate},
    CertificateStore.getCertificatesByRound s r = .ok cs → c ∈ cs →
      CertificateStore.getCertificate s c.digest = .ok c ∧ c.round = r

/-- What a store lists for a round: nothing, where it answers with an error. -/
def listedCertificates {S : Type} [CertificateStore S] (s : S) (round : UInt64) :
    List Certificate :=
  match CertificateStore.getCertificatesByRound s round with
  | .error _ => []
  | .ok certs => certs

theorem listedCertificates_of_ok {S : Type} [CertificateStore S] {s : S} {round : UInt64}
    {certs : List Certificate}
    (h : CertificateStore.getCertificatesByRound s round = .ok certs) :
    listedCertificates s round = certs := by
  rw [listedCertificates, h]

/-- A store with states in which it lists a round by one certificate for each key, and
stays in them. A certificate that is new is listed from then on, in the place of the one
of its key; a deletion leaves the other rounds alone. -/
class TalliesRounds (S : Type) [CertificateStore S] where
  Key : Type
  key : Certificate → Key
  sound : S → Prop
  answers : ∀ {s : S} (r : UInt64), sound s →
    ∃ cs, CertificateStore.getCertificatesByRound s r = .ok cs
  nodup : ∀ {s : S} (r : UInt64), sound s → ((listedCertificates s r).map key).Nodup
  stored : ∀ {s : S} {r : UInt64} {c : Certificate}, sound s → c ∈ listedCertificates s r →
    CertificateStore.getCertificate s c.digest = .ok c ∧ c.round = r
  has_get : ∀ {s : S} {d : Hash}, sound s → CertificateStore.hasCertificate s d = true →
    ∃ c, CertificateStore.getCertificate s d = .ok c ∧ c.digest = d
  save_ok : ∀ {s : S} (c : Certificate), sound s →
    (CertificateStore.saveCertificate s c).1 = .ok ()
  sound_save : ∀ {s : S} (c : Certificate), sound s →
    sound (CertificateStore.saveCertificate s c).2
  has_save : ∀ {s : S} {c : Certificate} {d : Hash}, sound s →
    (CertificateStore.hasCertificate (CertificateStore.saveCertificate s c).2 d = true ↔
      CertificateStore.hasCertificate s d = true ∨ d = c.digest)
  mem_save : ∀ {s : S} {r : UInt64} {c : Certificate} {k : Key}, sound s →
    (k ∈ (listedCertificates (CertificateStore.saveCertificate s c).2 r).map key ↔
      k ∈ (listedCertificates s r).map key ∨
        CertificateStore.hasCertificate s c.digest = false ∧ c.round = r ∧ k = key c)
  sound_delete : ∀ {s : S} (r : UInt64), sound s →
    sound (CertificateStore.deleteCertificatesBefore s r).2
  mem_delete : ∀ {s : S} {r r' : UInt64} {k : Key}, sound s → r ≤ r' →
    (k ∈ (listedCertificates (CertificateStore.deleteCertificatesBefore s r).2 r').map key ↔
      k ∈ (listedCertificates s r').map key)

namespace TalliesRounds

variable {S : Type} [CertificateStore S] [TalliesRounds S] {s s' : S} {r : UInt64}

/-- A store lists no fewer certificates than another whose keys it lists. -/
theorem length_le (h : sound s)
    (hsub : ∀ k, k ∈ (listedCertificates s r).map (key (S := S)) →
      k ∈ (listedCertificates s' r).map (key (S := S))) :
    (listedCertificates s r).length ≤ (listedCertificates s' r).length := by
  have hle := ((nodup r h).subperm hsub).length_le
  rwa [List.length_map, List.length_map] at hle

theorem length_le_save (h : sound s) (c : Certificate) :
    (listedCertificates s r).length ≤
      (listedCertificates (CertificateStore.saveCertificate s c).2 r).length :=
  length_le h fun _ hk => (mem_save h).mpr (.inl hk)

theorem length_le_delete (h : sound s) {r' : UInt64} (hle : r' ≤ r) :
    (listedCertificates s r).length ≤
      (listedCertificates (CertificateStore.deleteCertificatesBefore s r').2 r).length :=
  length_le h fun _ hk => (mem_delete h hle).mpr hk

end TalliesRounds

/-- A store with states in which it takes every certificate, and stays in them. -/
class AcceptingCertificateStore (S : Type) [CertificateStore S] where
  accepts : S → Prop
  save_ok : ∀ {s : S} (c : Certificate), accepts s →
    (CertificateStore.saveCertificate s c).1 = .ok ()
  accepts_save : ∀ {s : S} (c : Certificate), accepts s →
    accepts (CertificateStore.saveCertificate s c).2

/-- The same of a batch store. -/
class AcceptingBatchStore (S : Type) [BatchStore S] where
  accepts : S → Prop
  save_ok : ∀ {s : S} (b : Batch), accepts s → (BatchStore.saveBatch s b).1 = .ok ()
  accepts_save : ∀ {s : S} (b : Batch), accepts s → accepts (BatchStore.saveBatch s b).2

/-- An index with states in which it takes the batches that it may be given, knows their
transactions from then on, and stays in them. The batches matter: an index on disk passes over
a batch whose digest it has. -/
class AcceptingTxIndex (S : Type) [Crypto] [TxIndex S] where
  accepts : (Batch → Prop) → S → Prop
  hasTx_addBatch : ∀ {given : Batch → Prop} {s : S} {b : Batch} {h : Hash}, accepts given s →
    given b → TxIndex.hasTx s h = true ∨ h ∈ b.transactions.map Transaction.hash →
      TxIndex.hasTx (TxIndex.addBatch s b).2 h = true
  accepts_addBatch : ∀ {given : Batch → Prop} {s : S} {b : Batch}, accepts given s → given b →
    accepts given (TxIndex.addBatch s b).2

/-! ## Runs of saves

Much of the node only ever adds to the batch store. `BatchesSaved P` relates a
store to one that saving batches with property `P` has made of it, so that what
such code does to the store is one statement and what follows from it is proved
once. -/

inductive BatchesSaved {S : Type} [BatchStore S] (P : Batch → Prop) : S → S → Prop
  | refl (s : S) : BatchesSaved P s s
  | save {s s' : S} (h : BatchesSaved P s s') {b : Batch} (hb : P b) :
      BatchesSaved P s (BatchStore.saveBatch s' b).2

variable {b : Batch} {d : Hash}

namespace BatchesSaved

variable {S : Type} [BatchStore S] {P Q : Batch → Prop} {s s' s'' : S}

theorem one (hb : P b) : BatchesSaved P s (BatchStore.saveBatch s b).2 :=
  .save (.refl s) hb

theorem trans (h : BatchesSaved P s s') (h' : BatchesSaved P s' s'') :
    BatchesSaved P s s'' := by
  induction h' with
  | refl => exact h
  | save _ hb ih => exact .save ih hb

theorem mono (hle : ∀ b, P b → Q b) (h : BatchesSaved P s s') : BatchesSaved Q s s' := by
  induction h with
  | refl => exact .refl _
  | save _ hb ih => exact .save ih (hle _ hb)

theorem keeps [KeepsBatches S] (h : BatchesSaved P s s') (hb : BatchStore.getBatch s d = .ok b) :
    BatchStore.getBatch s' d = .ok b := by
  induction h with
  | refl => exact hb
  | save _ _ ih => exact KeepsBatches.get_save _ ih

theorem hasBatch [KnowsSavedBatches S] (h : BatchesSaved P s s')
    (hd : BatchStore.hasBatch s' d = true) :
    BatchStore.hasBatch s d = true ∨ ∃ b, P b ∧ d = b.digest := by
  induction h with
  | refl => exact .inl hd
  | save _ hP ih =>
    rcases KnowsSavedBatches.has_save hd with hold | rfl
    · exact ih hold
    · exact .inr ⟨_, hP, rfl⟩

variable [LawfulBatchStore S]

theorem getBatch (h : BatchesSaved P s s') (hb : BatchStore.getBatch s' d = .ok b) :
    BatchStore.getBatch s d = .ok b ∨
      P b ∧ ∀ b', BatchStore.getBatch s d ≠ .ok b' := by
  induction h with
  | refl => exact .inl hb
  | save hrun hP ih =>
    rcases LawfulBatchStore.getBatch_save hb with hold | ⟨rfl, hfree⟩
    · exact ih hold
    · exact .inr ⟨hP, fun b' hb' => hfree b' (hrun.keeps hb')⟩

end BatchesSaved

/-- A lawful certificate store answers for one digest more after a save, at most. -/
theorem hasCertificate_save {S : Type} [CertificateStore S] [LawfulCertificateStore S] {s : S}
    {c : Certificate}
    (h : CertificateStore.hasCertificate (CertificateStore.saveCertificate s c).2 d = true) :
    CertificateStore.hasCertificate s d = true ∨ d = c.digest := by
  obtain ⟨c', hc'⟩ := LawfulCertificateStore.hasCertificate_iff.mp h
  rcases LawfulCertificateStore.getCertificate_save hc' with hold | rfl
  · exact .inl (LawfulCertificateStore.hasCertificate_iff.mpr ⟨c', hold⟩)
  · exact .inr (LawfulCertificateStore.digest_eq hc').symm

/-- Stores that know of a certificate only once it was saved. -/
class KnowsSaved (S : Type) [CertificateStore S] : Prop where
  has_save : ∀ {s : S} {c : Certificate} {d : Hash},
    CertificateStore.hasCertificate (CertificateStore.saveCertificate s c).2 d = true →
      CertificateStore.hasCertificate s d = true ∨ d = c.digest
  has_delete : ∀ {s : S} {r : UInt64} {d : Hash},
    CertificateStore.hasCertificate (CertificateStore.deleteCertificatesBefore s r).2 d = true →
      CertificateStore.hasCertificate s d = true

instance {S : Type} [CertificateStore S] [LawfulCertificateStore S] : KnowsSaved S where
  has_save := hasCertificate_save
  has_delete h := by
    obtain ⟨c, hc⟩ := LawfulCertificateStore.hasCertificate_iff.mp h
    exact LawfulCertificateStore.hasCertificate_iff.mpr
      ⟨c, LawfulCertificateStore.getCertificate_delete hc⟩

end DagMempool
