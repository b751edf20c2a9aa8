import DagMempool.Store.LevelDBCertificate
import DagMempool.Store.MemoryCertificate

/-!
# Slots of a certificate store

What loading a round back relies on: a certificate that was saved keeps its round and
author listed, though possibly by another certificate. It holds of both stores as long
as nothing is deleted. A digest that is taken is where it can go wrong: the save is
answered with no error and does nothing, so that the certificate under the digest has to
be of the slot of the one to save.
-/

namespace DagMempool

/-- The authors a store lists for a round. -/
def listedAuthors {S : Type} [CertificateStore S] (s : S) (round : UInt64) : List UInt16 :=
  (listedCertificates s round).map Certificate.author

/-- A store with states that saves stay in, and in which it answers by digest with what was
saved under it and lists the authors of what was saved. -/
class SlotStore (S : Type) [CertificateStore S] where
  sound : S → Prop
  sound_save : ∀ {s : S} (c : Certificate), sound s →
    sound (CertificateStore.saveCertificate s c).2
  digest_eq : ∀ {s : S} {d : Hash} {c : Certificate}, sound s →
    CertificateStore.getCertificate s d = .ok c → c.digest = d
  get_save : ∀ {s : S} {d : Hash} {c c' : Certificate}, sound s →
    CertificateStore.getCertificate (CertificateStore.saveCertificate s c).2 d = .ok c' →
      CertificateStore.getCertificate s d = .ok c' ∨ c' = c
  listed_save : ∀ {s : S} {r : UInt64} {a : UInt16} (c : Certificate), sound s →
    a ∈ listedAuthors s r → a ∈ listedAuthors (CertificateStore.saveCertificate s c).2 r
  saved_listed : ∀ {s : S} {c : Certificate}, sound s →
    (∀ c', CertificateStore.getCertificate s c.digest = .ok c' →
      c'.round = c.round ∧ c'.author = c.author) →
      c.author ∈ listedAuthors (CertificateStore.saveCertificate s c).2 c.round

/-- A store that also gives back what was saved, by its digest for good, and by its round
unless another certificate took its slot. -/
class ReadsBack (S : Type) [CertificateStore S] extends SlotStore S where
  answers : ∀ {s : S} (r : UInt64), sound s →
    ∃ cs, CertificateStore.getCertificatesByRound s r = .ok cs
  stored : ∀ {s : S} {r : UInt64} {c : Certificate}, sound s → c ∈ listedCertificates s r →
    CertificateStore.getCertificate s c.digest = .ok c ∧ c.round = r
  save_keeps : ∀ {s : S} {d : Hash} {c' : Certificate} (c : Certificate), sound s →
    CertificateStore.getCertificate s d = .ok c' →
      CertificateStore.getCertificate (CertificateStore.saveCertificate s c).2 d = .ok c'
  saved : ∀ {s : S} {c : Certificate}, sound s →
    (∀ c', CertificateStore.getCertificate s c.digest ≠ .ok c') →
      CertificateStore.getCertificate (CertificateStore.saveCertificate s c).2 c.digest = .ok c
  mem_save : ∀ {s : S} {r : UInt64} {c c' : Certificate}, sound s →
    (∀ c', CertificateStore.getCertificate s c.digest ≠ .ok c') →
    c.author ∉ listedAuthors s c.round →
      (c' ∈ listedCertificates (CertificateStore.saveCertificate s c).2 r ↔
        c' ∈ listedCertificates s r ∨ c' = c ∧ r = c.round)
  highestRound_save : ∀ {s : S} {c : Certificate}, sound s →
    (∀ c', CertificateStore.getCertificate s c.digest ≠ .ok c') →
      CertificateStore.highestRound (CertificateStore.saveCertificate s c).2 =
        if CertificateStore.highestRound s < c.round then c.round
        else CertificateStore.highestRound s

namespace MemoryCertificateStore

theorem Sound.mem_listedAuthors {s : MemoryCertificateStore} (h : s.Sound) {r : UInt64}
    {a : UInt16} :
    a ∈ listedAuthors s r ↔
      ∃ c, s.index.items.get c.digest = some c ∧ c.round = r ∧ c.author = a := by
  rw [listedAuthors, h.listed, List.mem_map]
  constructor
  · rintro ⟨c, hc, ha⟩
    obtain ⟨hget, hround⟩ := RankIndex.mem_atRank.mp hc
    exact ⟨c, hget, hround, ha⟩
  · rintro ⟨c, hget, hround, ha⟩
    exact ⟨c, RankIndex.mem_atRank.mpr ⟨hget, hround⟩, ha⟩

instance : SlotStore MemoryCertificateStore where
  sound := Sound
  sound_save c h := TalliesRounds.sound_save (S := MemoryCertificateStore) c h
  digest_eq _ hget := LawfulCertificateStore.digest_eq hget
  get_save _ hget := LawfulCertificateStore.getCertificate_save hget
  listed_save {s r a} c h ha := by
    change a ∈ listedAuthors (s.saveCertificate c).2 r
    rcases h.save_cases c with ⟨-, hs⟩ | ⟨hfree, hsound, hitems⟩
    · rw [hs]
      exact ha
    · obtain ⟨c', hget, hround, hauthor⟩ := h.mem_listedAuthors.mp ha
      have hne : c'.digest ≠ c.digest := by
        intro he
        rw [h.hasCertificate, ← he, GoMap.has, hget] at hfree
        cases hfree
      refine hsound.mem_listedAuthors.mpr ⟨c', ?_, hround, hauthor⟩
      rw [hitems, GoMap.get_set_ne hne]
      exact hget
  saved_listed {s c} h hsame := by
    change c.author ∈ listedAuthors (s.saveCertificate c).2 c.round
    rcases h.save_cases c with ⟨hhas, hs⟩ | ⟨-, hsound, hitems⟩
    · rw [hs]
      obtain ⟨-, c', hget⟩ := hasCertificate_eq_true.mp hhas
      obtain ⟨hround, hauthor⟩ := hsame c' (getCertificate_eq_ok.mpr ⟨h.opened, hget⟩)
      have hkey := s.index.keyed hget
      exact h.mem_listedAuthors.mpr ⟨c', hkey ▸ hget, hround, hauthor⟩
    · refine hsound.mem_listedAuthors.mpr ⟨c, ?_, rfl, rfl⟩
      rw [hitems, GoMap.get_set_self]

theorem Sound.saveCertificate_free {s : MemoryCertificateStore} (h : s.Sound) {c : Certificate}
    (hfree : ∀ c', CertificateStore.getCertificate s c.digest ≠ .ok c') :
    ∃ hnone : s.index.items.get c.digest = none, ∃ validators,
      (s.saveCertificate c).2 =
        { s with index := s.index.insert c hnone, byValidator := validators } := by
  have hnone : s.index.items.get c.digest = none := by
    cases hget : s.index.items.get c.digest with
    | none => rfl
    | some c' => exact absurd (getCertificate_eq_ok.mpr ⟨h.opened, hget⟩) (hfree c')
  refine ⟨hnone, s.byValidator.set c.round
    (((s.byValidator.get c.round).getD ∅).set c.author c.digest), ?_⟩
  simp [saveCertificate, h.opened, hnone]

instance : ReadsBack MemoryCertificateStore where
  answers r h := TalliesRounds.answers (S := MemoryCertificateStore) r h
  stored h hc := TalliesRounds.stored (S := MemoryCertificateStore) h hc
  save_keeps _ _ hget := LawfulCertificateStore.save_keeps hget
  saved {s c} h hfree := by
    change (s.saveCertificate c).2.getCertificate c.digest = .ok c
    obtain ⟨hnone, validators, heq⟩ := h.saveCertificate_free hfree
    rw [heq, getCertificate_eq_ok]
    exact ⟨h.opened, GoMap.get_set_self _ _ _⟩
  mem_save {s r c c'} h hfree _ := by
    change c' ∈ listedCertificates (s.saveCertificate c).2 r ↔ _
    have hsound : (s.saveCertificate c).2.Sound :=
      SlotStore.sound_save (S := MemoryCertificateStore) c h
    obtain ⟨hnone, validators, heq⟩ := h.saveCertificate_free hfree
    rw [hsound.listed, h.listed, heq, RankIndex.mem_atRank, RankIndex.mem_atRank]
    have hitems : (s.index.insert c hnone).items = s.index.items.set c.digest c := rfl
    rw [hitems, GoMap.get_set]
    by_cases hd : c'.digest = c.digest
    · rw [if_pos hd, hd, hnone]
      constructor
      · rintro ⟨he, hr⟩
        obtain rfl := Option.some.inj he
        exact .inr ⟨rfl, hr.symm⟩
      · rintro (⟨hfalse, -⟩ | ⟨rfl, rfl⟩)
        · cases hfalse
        · exact ⟨rfl, rfl⟩
    · have hne : c' ≠ c := fun he => hd (by rw [he])
      rw [if_neg hd]
      simp [hne]
  highestRound_save {s c} h hfree := by
    change (s.saveCertificate c).2.highestRound = _
    obtain ⟨hnone, validators, heq⟩ := h.saveCertificate_free hfree
    rw [heq]
    exact highestRound_insert s hnone validators

end MemoryCertificateStore

namespace LevelDBCertificateStore

variable [Cramberry Certificate]

/-- The bytes stand for something in which every certificate has its slot filled. -/
def Listed (s : LevelDBCertificateStore) : Prop :=
  ∃ held slot highest, s.Represents held slot highest ∧
    ∀ d c, held d = some c → (slot c.round c.author).isSome

theorem listed_new : new.Listed :=
  ⟨_, _, _, represents_new, fun _ _ h => absurd h (by simp)⟩

variable {s : LevelDBCertificateStore} {held : Hash → Option Certificate}
  {slot : UInt64 → UInt16 → Option Hash}

instance : SlotStore LevelDBCertificateStore where
  sound := Listed
  sound_save c := by
    rintro ⟨held, slot, highest, hrep, hfilled⟩
    obtain ⟨-, held', slot', highest', hrep', hheld, hslot⟩ := hrep.save c
    refine ⟨held', slot', highest', hrep', fun d c' hd => (hslot _ _).mpr ?_⟩
    rcases (hheld d c').mp hd with hold | ⟨hfree, -, rfl⟩
    · exact .inl (hfilled d c' hold)
    · exact .inr ⟨hfree, rfl, rfl⟩
  digest_eq := by
    rintro s d c ⟨_, _, _, hrep, -⟩ hget
    exact hrep.keyed (hrep.getCertificate_eq_ok.mp hget)
  get_save {s d c c'} := by
    rintro ⟨_, _, _, hrep, -⟩ hget
    obtain ⟨-, _, _, _, hrep', hheld, -⟩ := hrep.save c
    rcases (hheld d c').mp (hrep'.getCertificate_eq_ok.mp hget) with hold | ⟨-, -, rfl⟩
    · exact .inl (hrep.getCertificate_eq_ok.mpr hold)
    · exact .inr rfl
  listed_save {s r a} c := by
    rintro ⟨_, _, _, hrep, -⟩ ha
    obtain ⟨-, _, _, _, hrep', -, hslot⟩ := hrep.save c
    exact hrep'.mem_authors.mpr ((hslot r a).mpr (.inl (hrep.mem_authors.mp ha)))
  saved_listed {s c} := by
    rintro ⟨held, _, _, hrep, hfilled⟩ hsame
    obtain ⟨-, _, _, _, hrep', -, hslot⟩ := hrep.save c
    refine hrep'.mem_authors.mpr ((hslot _ _).mpr ?_)
    cases hc : held c.digest with
    | none => exact .inr ⟨rfl, rfl, rfl⟩
    | some c' =>
      obtain ⟨hround, hauthor⟩ := hsame c' (hrep.getCertificate_eq_ok.mpr hc)
      rw [← hround, ← hauthor]
      exact .inl (hfilled _ c' hc)

theorem Represents.free_of_get {highest : UInt64} (h : s.Represents held slot highest)
    {c : Certificate} (hfree : ∀ c', CertificateStore.getCertificate s c.digest ≠ .ok c') :
    held c.digest = none := by
  cases hheld : held c.digest with
  | none => rfl
  | some c' => exact absurd (h.getCertificate_eq_ok.mpr hheld) (hfree c')

theorem Represents.mem_listed {highest : UInt64} (h : s.Represents held slot highest) {r : UInt64}
    {c : Certificate} :
    c ∈ listedCertificates s r ↔ held c.digest = some c ∧ slot r c.author = some c.digest := by
  obtain ⟨cs, hcs, -, hmem⟩ := h.getCertificatesByRound r
  rw [listedCertificates_of_ok hcs]
  exact hmem c

instance : ReadsBack LevelDBCertificateStore where
  answers r := by
    rintro ⟨held, slot, highest, hrep, -⟩
    exact TalliesRounds.answers (S := LevelDBCertificateStore) r ⟨held, slot, highest, hrep⟩
  stored := by
    rintro s r c ⟨held, slot, highest, hrep, -⟩ hc
    exact TalliesRounds.stored (S := LevelDBCertificateStore) ⟨held, slot, highest, hrep⟩ hc
  save_keeps := by
    rintro s d c' c ⟨held, slot, highest, hrep, -⟩ hget
    obtain ⟨-, _, _, _, hrep', hsaved, -⟩ := hrep.save c
    exact hrep'.getCertificate_eq_ok.mpr
      ((hsaved d c').mpr (.inl (hrep.getCertificate_eq_ok.mp hget)))
  saved := by
    rintro s c ⟨held, slot, highest, hrep, -⟩ hfree
    obtain ⟨-, _, _, _, hrep', hsaved, -⟩ := hrep.save c
    exact hrep'.getCertificate_eq_ok.mpr
      ((hsaved _ c).mpr (.inr ⟨hrep.free_of_get hfree, rfl, rfl⟩))
  mem_save := by
    rintro s r c c' ⟨held, slot, highest, hrep, -⟩ hfree hslot
    change c' ∈ listedCertificates (s.saveCertificate c).2 r ↔ _
    have hnone := hrep.free_of_get hfree
    have hrep' := (hrep.saveCertificate_free hnone (fun _ => rfl) fun _ _ => rfl).2
    rw [hrep'.mem_listed, hrep.mem_listed]
    have hempty : slot c.round c.author = none := by
      have hauthors := hrep.mem_authors.not.mp hslot
      simpa using hauthors
    by_cases hd : c'.digest = c.digest
    · rw [if_pos hd, hd, hnone]
      constructor
      · rintro ⟨he, hslot'⟩
        obtain rfl := Option.some.inj he
        refine .inr ⟨rfl, ?_⟩
        by_contra hr
        rw [if_neg fun h => hr h.1] at hslot'
        obtain ⟨c', hc', -⟩ := hrep.filled hslot'
        exact absurd (hc'.symm.trans hnone) (by simp)
      · rintro (⟨hfalse, -⟩ | ⟨rfl, rfl⟩)
        · cases hfalse
        · simp
    · have hne : c' ≠ c := fun he => hd (by rw [he])
      rw [if_neg hd]
      by_cases hra : r = c.round ∧ c'.author = c.author
      · simp [hra.1, hra.2, hempty, hne, Ne.symm hd]
      · simp [hra, hne]
  highestRound_save := by
    rintro s c ⟨held, slot, highest, hrep, -⟩ hfree
    change (s.saveCertificate c).2.getHighestRound =
      if s.getHighestRound < c.round then c.round else s.getHighestRound
    have hrep' := (hrep.saveCertificate_free (hrep.free_of_get hfree) (fun _ => rfl)
      fun _ _ => rfl).2
    rw [hrep'.highest, hrep.highest]

end LevelDBCertificateStore

end DagMempool
