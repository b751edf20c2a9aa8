import DagMempool.Store.LevelDBBatch
import DagMempool.Store.MemoryBatch
import DagMempool.Store.Slots

/-!
# What stores list for a round

A collection goes through the stores round by round. What it needs of the batches is that a
round is listed as it is stored, each batch once, and that a deletion leaves what is not below
the round it is called with; of the certificates, that a save shows in its own round only and a
deletion in none. Both kinds of store do that in the states they stay in while nothing fails.
-/

namespace DagMempool

/-- A store with states that its calls stay in, and in which its lists of a round are exact. -/
class ListsBatches (S : Type) [BatchStore S] where
  sound : S → Prop
  sound_save : ∀ {s : S} (b : Batch), sound s → sound (BatchStore.saveBatch s b).2
  sound_delete : ∀ {s : S} (r : UInt64), sound s → sound (BatchStore.deleteBatchesBefore s r).2
  digest_eq : ∀ {s : S} {d : Hash} {b : Batch}, sound s →
    BatchStore.getBatch s d = .ok b → b.digest = d
  lists : ∀ {s : S} (r : UInt64), sound s → ∃ bs, BatchStore.getBatchesByRound s r = .ok bs ∧
    bs.Nodup ∧ ∀ b, b ∈ bs ↔ BatchStore.getBatch s b.digest = .ok b ∧ b.round = r
  get_save : ∀ {s : S} {d : Hash} {b b' : Batch}, sound s →
    BatchStore.getBatch (BatchStore.saveBatch s b).2 d = .ok b' →
      BatchStore.getBatch s d = .ok b' ∨ b' = b
  get_delete : ∀ {s : S} {r : UInt64} {d : Hash} {b : Batch}, sound s →
    BatchStore.getBatch (BatchStore.deleteBatchesBefore s r).2 d = .ok b →
      BatchStore.getBatch s d = .ok b ∧ r ≤ b.round

/-- A store whose calls change the list of no round but that of a certificate saved. -/
class ListsCertificates (S : Type) [CertificateStore S] [TalliesRounds S] : Prop where
  listed_save : ∀ {s : S} {r : UInt64} {c c' : Certificate}, TalliesRounds.sound s →
    r ≠ c.round → c' ∈ listedCertificates (CertificateStore.saveCertificate s c).2 r →
      c' ∈ listedCertificates s r
  listed_delete : ∀ {s : S} {r r' : UInt64} {c : Certificate}, TalliesRounds.sound s →
    c ∈ listedCertificates (CertificateStore.deleteCertificatesBefore s r).2 r' →
      c ∈ listedCertificates s r'

namespace MemoryBatchStore

/-- Open, and no round lists a digest twice. -/
structure Sound (s : MemoryBatchStore) : Prop where
  opened : s.closed = false
  distinct : s.index.Distinct

theorem sound_new : new.Sound := ⟨rfl, RankIndex.distinct_empty⟩

instance : ListsBatches MemoryBatchStore where
  sound := Sound
  sound_save {s} b h := by
    change (s.saveBatch b).2.Sound
    unfold saveBatch
    split
    · exact h
    · split
      · next hfree => exact ⟨h.opened, h.distinct.insert hfree⟩
      · exact h
  sound_delete {s} r h := by
    change (s.deleteBatchesBefore r).2.Sound
    unfold deleteBatchesBefore
    split
    · exact h
    · exact ⟨h.opened, h.distinct.drop _⟩
  digest_eq _ hget := LawfulBatchStore.digest_eq hget
  lists {s} r h := by
    refine ⟨s.index.atRank r, ?_, (h.distinct.nodup_atRank r).of_map, fun b => ?_⟩
    · change s.getBatchesByRound r = .ok (s.index.atRank r)
      rw [getBatchesByRound, if_neg (by simp [h.opened])]
    · change b ∈ s.index.atRank r ↔ s.getBatch b.digest = .ok b ∧ b.round = r
      rw [RankIndex.mem_atRank, getBatch_eq_ok]
      simp [h.opened]
  get_save _ hget := (LawfulBatchStore.getBatch_save hget).imp_right And.left
  get_delete h hget := (deleteBatchesBefore_getBatch h.opened).mp hget

end MemoryBatchStore

namespace MemoryCertificateStore

instance : ListsCertificates MemoryCertificateStore where
  listed_save {s r c c'} h hr hc' := by
    change c' ∈ listedCertificates (s.saveCertificate c).2 r at hc'
    rcases h.save_cases c with ⟨-, hs⟩ | ⟨-, hsound, hitems⟩
    · rwa [hs] at hc'
    · rw [hsound.listed, RankIndex.mem_atRank, hitems] at hc'
      rw [h.listed, RankIndex.mem_atRank]
      rcases GoMap.get_set_eq_some hc'.1 with ⟨-, rfl⟩ | ⟨-, hold⟩
      · exact absurd hc'.2.symm hr
      · exact ⟨hold, hc'.2⟩
  listed_delete {s r r' c} h hc := by
    change c ∈ listedCertificates (s.deleteCertificatesBefore r).2 r' at hc
    obtain ⟨hsound, hindex⟩ := h.delete r
    rw [hsound.listed, RankIndex.mem_atRank, hindex, RankIndex.get_drop] at hc
    rw [h.listed, RankIndex.mem_atRank]
    exact ⟨hc.1.1, hc.2⟩

end MemoryCertificateStore

namespace LevelDBBatchStore

variable [Cramberry Batch] {s : LevelDBBatchStore} {held : Hash → Option Batch}

/-- The bytes stand for something. -/
def Sound (s : LevelDBBatchStore) : Prop := ∃ held, s.Represents held

theorem sound_new : new.Sound := ⟨_, represents_new⟩

theorem Represents.getBatch_eq_ok (h : s.Represents held) {d : Hash} {b : Batch} :
    s.getBatch d = .ok b ↔ held d = some b := by
  rw [h.getBatch]
  cases held d with
  | none => simp
  | some b' => simp

theorem Represents.save (h : s.Represents held) (b : Batch) :
    ∃ held', (s.saveBatch b).2.Represents held' ∧ ∀ d b', held' d = some b' ↔
      held d = some b' ∨ held b.digest = none ∧ d = b.digest ∧ b' = b := by
  cases hb : held b.digest with
  | some b' =>
    rw [h.saveBatch_held (by simp [hb])]
    exact ⟨held, h, by simp⟩
  | none =>
    refine ⟨_, (h.saveBatch_free hb fun _ => rfl).2, fun d b' => ?_⟩
    split
    · next hd => simp [hd, hb, eq_comm]
    · next hd => simp [hd]

theorem Represents.delete (h : s.Represents held) (r : UInt64) :
    ∃ held', (s.deleteBatchesBefore r).2.Represents held' ∧
      ∀ d b, held' d = some b ↔ held d = some b ∧ ¬ b.round < r := by
  have hheld' : ∀ d b, ((held d).filter fun b => !decide (b.round < r)) = some b ↔
      held d = some b ∧ ¬ b.round < r := by
    intro d b
    rw [Option.filter_eq_some_iff]
    simp
  exact ⟨_, (h.deleteBatchesBefore r hheld').2, hheld'⟩

instance : ListsBatches LevelDBBatchStore where
  sound := Sound
  sound_save b := by
    rintro ⟨held, h⟩
    obtain ⟨held', h', -⟩ := h.save b
    exact ⟨held', h'⟩
  sound_delete r := by
    rintro ⟨held, h⟩
    obtain ⟨held', h', -⟩ := h.delete r
    exact ⟨held', h'⟩
  digest_eq := by
    rintro s d b ⟨held, h⟩ hget
    exact h.keyed (h.getBatch_eq_ok.mp hget)
  lists r := by
    rintro ⟨held, h⟩
    obtain ⟨bs, hbs, hnodup, hmem⟩ := h.getBatchesByRound r
    refine ⟨bs, hbs, hnodup, fun b => (hmem b).trans ?_⟩
    exact and_congr_left' h.getBatch_eq_ok.symm
  get_save := by
    rintro s d b b' ⟨held, h⟩ hget
    obtain ⟨held', h', hsaved⟩ := h.save b
    exact ((hsaved d b').mp (h'.getBatch_eq_ok.mp hget)).imp h.getBatch_eq_ok.mpr fun hnew =>
      hnew.2.2
  get_delete := by
    rintro s r d b ⟨held, h⟩ hget
    obtain ⟨held', h', hleft⟩ := h.delete r
    obtain ⟨hheld, hround⟩ := (hleft d b).mp (h'.getBatch_eq_ok.mp hget)
    exact ⟨h.getBatch_eq_ok.mpr hheld, UInt64.not_lt.mp hround⟩

/-! A store on disk that is open and whose bytes stand for something is a lawful one. -/

instance : BatchStore { s : LevelDBBatchStore // s.Sound } where
  saveBatch s b :=
    ((s.1.saveBatch b).1,
      ⟨(s.1.saveBatch b).2, ListsBatches.sound_save (S := LevelDBBatchStore) b s.2⟩)
  getBatch s := s.1.getBatch
  hasBatch s := s.1.hasBatch
  getBatchesByRound s := s.1.getBatchesByRound
  deleteBatchesBefore s r :=
    ((s.1.deleteBatchesBefore r).1,
      ⟨(s.1.deleteBatchesBefore r).2,
        ListsBatches.sound_delete (S := LevelDBBatchStore) r s.2⟩)

instance : Inhabited { s : LevelDBBatchStore // s.Sound } := ⟨⟨new, sound_new⟩⟩

instance : LawfulBatchStore { s : LevelDBBatchStore // s.Sound } where
  hasBatch_iff := by
    rintro ⟨s, held, h⟩ d
    show s.hasBatch d = true ↔ ∃ b, s.getBatch d = .ok b
    simp only [h.hasBatch, h.getBatch_eq_ok, Option.isSome_iff_exists]
  digest_eq {s d b} hget := ListsBatches.digest_eq (S := LevelDBBatchStore) s.2 hget
  getBatch_save := by
    rintro ⟨s, held, h⟩ b b' d hget
    show s.getBatch d = .ok b' ∨ b' = b ∧ ∀ b'', s.getBatch d ≠ .ok b''
    obtain ⟨held', h', hsaved⟩ := h.save b
    simp only [ne_eq, h.getBatch_eq_ok]
    rcases (hsaved d b').mp (h'.getBatch_eq_ok.mp hget) with hold | ⟨hfree, rfl, rfl⟩
    · exact .inl hold
    · exact .inr ⟨rfl, by simp [hfree]⟩
  save_keeps := by
    rintro ⟨s, held, h⟩ b b' d hget
    obtain ⟨held', h', hsaved⟩ := h.save b
    exact h'.getBatch_eq_ok.mpr ((hsaved d b').mpr (.inl (h.getBatch_eq_ok.mp hget)))
  byRound := by
    rintro s r bs b hbs
    obtain ⟨bs', hbs', -, hmem⟩ := ListsBatches.lists (S := LevelDBBatchStore) r s.2
    obtain rfl := Except.ok.inj (hbs.symm.trans hbs')
    exact hmem b
  getBatch_delete {s r d b} hget := (ListsBatches.get_delete (S := LevelDBBatchStore) s.2 hget).1
  delete_keeps := by
    rintro ⟨s, held, h⟩ r d b hget hle
    obtain ⟨held', h', hleft⟩ := h.delete r
    exact h'.getBatch_eq_ok.mpr
      ((hleft d b).mpr ⟨h.getBatch_eq_ok.mp hget, UInt64.not_lt.mpr hle⟩)
  delete_removes {s r d b} _ hget := (ListsBatches.get_delete (S := LevelDBBatchStore) s.2 hget).2

instance : ReportsSaves { s : LevelDBBatchStore // s.Sound } where
  has_of_ok {s b} h := ReportsSaves.has_of_ok (S := LevelDBBatchStore) (s := s.1) (b := b) h
  eq_of_error {s b _} h :=
    Subtype.ext (ReportsSaves.eq_of_error (S := LevelDBBatchStore) (s := s.1) (b := b) h)

end LevelDBBatchStore

namespace LevelDBCertificateStore

variable [Cramberry Certificate]

instance : ListsCertificates LevelDBCertificateStore where
  listed_save := by
    rintro s r c c' ⟨held, slot, highest, h⟩ hr hc'
    change c' ∈ listedCertificates (s.saveCertificate c).2 r at hc'
    cases hc : held c.digest with
    | some c'' => rwa [h.saveCertificate_held (by simp [hc])] at hc'
    | none =>
      have h' := (h.saveCertificate_free hc (fun _ => rfl) fun _ _ => rfl).2
      rw [h'.mem_listed] at hc'
      obtain ⟨hheld, hslot⟩ := hc'
      rw [if_neg fun he => hr he.1] at hslot
      obtain ⟨c'', hc'', -⟩ := h.filled hslot
      have hne : c'.digest ≠ c.digest := by
        intro he
        rw [he, hc] at hc''
        cases hc''
      rw [if_neg hne] at hheld
      exact h.mem_listed.mpr ⟨hheld, hslot⟩
  listed_delete := by
    rintro s r r' c ⟨held, slot, highest, h⟩ hc
    obtain ⟨held', h', hleft⟩ := h.deleted r
    obtain ⟨hheld, hslot⟩ := h'.mem_listed.mp hc
    split at hslot
    · cases hslot
    · exact h.mem_listed.mpr ⟨hleft _ _ hheld, hslot⟩

end LevelDBCertificateStore

end DagMempool
