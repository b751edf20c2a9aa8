import DagMempool.Lib.RankIndex
import DagMempool.Store.Store

/-!
# The in-memory certificate store

As the batch store, with a third map from a round and a validator to the digest
saved last for them. Unlike the DAG, the store takes any number of certificates
for one round and author.
-/

namespace DagMempool

structure MemoryCertificateStore where
  index : RankIndex Certificate.digest Certificate.round
  byValidator : GoMap UInt64 (GoMap UInt16 Hash)
  closed : Bool

namespace MemoryCertificateStore

def new : MemoryCertificateStore := { index := .empty, byValidator := ∅, closed := false }

def saveCertificate (s : MemoryCertificateStore) (c : Certificate) :
    Except GoError Unit × MemoryCertificateStore :=
  if s.closed then (.error .notRunning, s)
  else if h : s.index.items.get c.digest = none then
    (.ok (), { s with
      index := s.index.insert c h
      byValidator := s.byValidator.set c.round
        (((s.byValidator.get c.round).getD ∅).set c.author c.digest) })
  else (.ok (), s)

def getCertificate (s : MemoryCertificateStore) (digest : Hash) : Except GoError Certificate :=
  if s.closed then .error .notRunning
  else match s.index.items.get digest with
    | none => .error .certificateNotFound
    | some cert => .ok cert

def hasCertificate (s : MemoryCertificateStore) (digest : Hash) : Bool :=
  if s.closed then false else s.index.items.has digest

def getCertificatesByRound (s : MemoryCertificateStore) (round : UInt64) :
    Except GoError (List Certificate) :=
  if s.closed then .error .notRunning else .ok (s.index.atRank round)

def getCertificateForValidator (s : MemoryCertificateStore) (round : UInt64)
    (validator : UInt16) : Except GoError Certificate :=
  if s.closed then .error .notRunning
  else match (s.byValidator.get round).bind fun m => m.get validator with
    | none => .error .certificateNotFound
    | some digest => match s.index.items.get digest with
      | none => .error .certificateNotFound
      | some cert => .ok cert

def deleteCertificatesBefore (s : MemoryCertificateStore) (round : UInt64) :
    Except GoError Unit × MemoryCertificateStore :=
  if s.closed then (.error .notRunning, s)
  else
    let doomed := s.index.byRank.keys.filter fun r => decide (r < round)
    (.ok (), { s with
      index := s.index.drop fun r => decide (r < round)
      byValidator := s.byValidator.delAll doomed })

def highestRound (s : MemoryCertificateStore) : UInt64 :=
  s.index.byRank.keys.foldl (fun highest r => if highest < r then r else highest) 0

instance : CertificateStore MemoryCertificateStore where
  saveCertificate := saveCertificate
  getCertificate := getCertificate
  hasCertificate := hasCertificate
  getCertificatesByRound := getCertificatesByRound
  getCertificateForValidator := getCertificateForValidator
  deleteCertificatesBefore := deleteCertificatesBefore
  highestRound := highestRound

/-! ## The laws -/

variable {d : Hash} (m : MemoryCertificateStore)

theorem getCertificate_eq_ok {s : MemoryCertificateStore} {c : Certificate} :
    s.getCertificate d = .ok c ↔ s.closed = false ∧ s.index.items.get d = some c := by
  unfold getCertificate
  cases s.closed with
  | true => simp
  | false =>
    cases s.index.items.get d with
    | none => simp
    | some c' => simp

theorem hasCertificate_eq_true {s : MemoryCertificateStore} :
    s.hasCertificate d = true ↔ s.closed = false ∧ ∃ c, s.index.items.get d = some c := by
  unfold hasCertificate
  cases s.closed with
  | true => simp
  | false => simp [GoMap.has_iff]

theorem saveCertificate_cases (s : MemoryCertificateStore) (c : Certificate) :
    (s.saveCertificate c).2 = s ∨
    (s.index.items.get c.digest = none ∧ (s.saveCertificate c).2.closed = s.closed ∧
      (s.saveCertificate c).2.index.items = s.index.items.set c.digest c) := by
  unfold saveCertificate
  split
  · exact .inl rfl
  · split
    · next hfree => exact .inr ⟨hfree, rfl, rfl⟩
    · exact .inl rfl

instance : LawfulCertificateStore MemoryCertificateStore where
  hasCertificate_iff {s d} := by
    change s.hasCertificate d = true ↔ ∃ c, s.getCertificate d = .ok c
    simp only [hasCertificate_eq_true, getCertificate_eq_ok]
    exact ⟨fun ⟨hc, c, h⟩ => ⟨c, hc, h⟩, fun ⟨c, hc, h⟩ => ⟨hc, c, h⟩⟩
  digest_eq {s d c} h := s.index.keyed (getCertificate_eq_ok.mp h).2
  getCertificate_save {s c c' d} h := by
    have h : (s.saveCertificate c).2.getCertificate d = .ok c' := h
    rcases saveCertificate_cases s c with hs | ⟨-, hclosed, hmap⟩
    · rw [hs] at h
      exact .inl h
    · obtain ⟨hopen, hget⟩ := getCertificate_eq_ok.mp h
      rw [hclosed] at hopen
      rw [hmap] at hget
      rcases GoMap.get_set_eq_some hget with ⟨-, rfl⟩ | ⟨-, hold⟩
      · exact .inr rfl
      · exact .inl (getCertificate_eq_ok.mpr ⟨hopen, hold⟩)
  save_keeps {s c c' d} h := by
    change (s.saveCertificate c).2.getCertificate d = .ok c'
    rcases saveCertificate_cases s c with hs | ⟨hfree, hclosed, hmap⟩
    · rw [hs]
      exact h
    · obtain ⟨hopen, hget⟩ := getCertificate_eq_ok.mp h
      rw [getCertificate_eq_ok, hclosed, hmap]
      refine ⟨hopen, ?_⟩
      rw [GoMap.get_set_ne]
      · exact hget
      · intro he
        rw [he, hfree] at hget
        cases hget
  getCertificate_delete {s r d c} h := by
    have h : (s.deleteCertificatesBefore r).2.getCertificate d = .ok c := h
    unfold deleteCertificatesBefore at h
    split at h
    · exact h
    · obtain ⟨hopen, hget⟩ := getCertificate_eq_ok.mp h
      exact getCertificate_eq_ok.mpr ⟨hopen, (RankIndex.get_drop.mp hget).1⟩

instance : LawfulCertificateRounds MemoryCertificateStore where
  byRound {s r cs c} hcs hc := by
    have hcs : s.getCertificatesByRound r = .ok cs := hcs
    unfold getCertificatesByRound at hcs
    split at hcs
    · cases hcs
    · next hopen =>
        cases hcs
        obtain ⟨hget, hround⟩ := RankIndex.mem_atRank.mp hc
        exact ⟨getCertificate_eq_ok.mpr ⟨by simpa using hopen, hget⟩, hround⟩

/-! ## The highest round -/

theorem foldl_highest (rounds : List UInt64) (start : UInt64) :
    let highest := rounds.foldl (fun highest r => if highest < r then r else highest) start
    start ≤ highest ∧ (∀ r ∈ rounds, r ≤ highest) ∧ (highest = start ∨ highest ∈ rounds) := by
  induction rounds generalizing start with
  | nil => simp
  | cons r rounds ih =>
    obtain ⟨hstart, hall, hsome⟩ := ih (if start < r then r else start)
    simp only [List.foldl_cons, List.mem_cons]
    have hle : start ≤ (if start < r then r else start) ∧
        r ≤ (if start < r then r else start) := by
      split
      · next hlt => exact ⟨UInt64.le_of_lt hlt, UInt64.le_refl r⟩
      · next hlt => exact ⟨UInt64.le_refl start, UInt64.not_lt.mp hlt⟩
    refine ⟨UInt64.le_trans hle.1 hstart, ?_, ?_⟩
    · intro r' hr'
      rcases hr' with rfl | hr'
      · exact UInt64.le_trans hle.2 hstart
      · exact hall r' hr'
    · rcases hsome with hsome | hsome
      · rw [hsome]
        split
        · exact .inr (.inl rfl)
        · exact .inl rfl
      · exact .inr (.inr hsome)

/-- The highest round is one that is listed, or `0`, and no listed round is higher. -/
theorem highestRound_spec :
    (∀ r, m.index.byRank.has r = true → r ≤ m.highestRound) ∧
      (m.highestRound = 0 ∨ m.index.byRank.has m.highestRound = true) := by
  obtain ⟨-, hall, hsome⟩ := foldl_highest m.index.byRank.keys 0
  refine ⟨fun r hr => hall r (GoMap.mem_keys.mpr hr), ?_⟩
  rcases hsome with hsome | hsome
  · exact .inl hsome
  · exact .inr (GoMap.mem_keys.mp hsome)

theorem highestRound_eq {m : MemoryCertificateStore} {h : UInt64}
    (hall : ∀ r, m.index.byRank.has r = true → r ≤ h)
    (hsome : h = 0 ∨ m.index.byRank.has h = true) : m.highestRound = h := by
  obtain ⟨hall', hsome'⟩ := m.highestRound_spec
  apply UInt64.le_antisymm
  · rcases hsome' with hzero | hlisted
    · rw [hzero]
      exact UInt64.zero_le
    · exact hall _ hlisted
  · rcases hsome with hzero | hlisted
    · rw [hzero]
      exact UInt64.zero_le
    · exact hall' _ hlisted

theorem highestRound_insert {c : Certificate} (hfree : m.index.items.get c.digest = none)
    (validators : GoMap UInt64 (GoMap UInt16 Hash)) :
    highestRound { m with index := m.index.insert c hfree, byValidator := validators } =
      if m.highestRound < c.round then c.round else m.highestRound := by
  obtain ⟨hall, hsome⟩ := m.highestRound_spec
  have hhas : ∀ r, (m.index.insert c hfree).byRank.has r = true ↔
      r = c.round ∨ m.index.byRank.has r = true := fun r => GoMap.has_set
  apply highestRound_eq
  · intro r hr
    rcases (hhas r).mp hr with rfl | hr
    · split
      · exact UInt64.le_refl _
      · next hlt => exact UInt64.not_lt.mp hlt
    · split
      · next hlt => exact UInt64.le_trans (hall r hr) (UInt64.le_of_lt hlt)
      · exact hall r hr
  · split
    · exact .inr ((hhas _).mpr (.inl rfl))
    · exact hsome.imp_right fun hlisted => (hhas _).mpr (.inr hlisted)

theorem highestRound_drop {round : UInt64} (hround : m.highestRound = 0 ∨ round ≤ m.highestRound)
    (validators : GoMap UInt64 (GoMap UInt16 Hash)) :
    highestRound { m with
      index := m.index.drop fun r => decide (r < round), byValidator := validators } =
      m.highestRound := by
  obtain ⟨hall, hsome⟩ := m.highestRound_spec
  have hhas : ∀ r, (m.index.drop fun r => decide (r < round)).byRank.has r = true ↔
      m.index.byRank.has r = true ∧ ¬ r < round := by
    intro r
    rw [show (m.index.drop fun r => decide (r < round)).byRank =
      m.index.byRank.filter fun r _ => !decide (r < round) from rfl, GoMap.has_filter,
      GoMap.has_iff]
    simp
  apply highestRound_eq
  · exact fun r hr => hall r ((hhas r).mp hr).1
  · rcases hround with hzero | hle
    · exact .inl hzero
    · exact hsome.imp_right fun hlisted => (hhas _).mpr ⟨hlisted, UInt64.not_lt.mpr hle⟩

/-! ## Open stores -/

/-- Until it is closed the store takes everything. -/
instance : AcceptingCertificateStore MemoryCertificateStore where
  accepts s := s.closed = false
  save_ok {s} c h := by
    change (s.saveCertificate c).1 = .ok ()
    unfold saveCertificate
    rw [h]
    split
    · next hclosed => cases hclosed
    · split <;> rfl
  accepts_save {s} c h := by
    change (s.saveCertificate c).2.closed = false
    rcases saveCertificate_cases s c with hs | ⟨-, hclosed, -⟩
    · rw [hs]
      exact h
    · rw [hclosed]
      exact h

/-- Open, with no digest listed twice for a round. -/
structure Sound (s : MemoryCertificateStore) : Prop where
  opened : s.closed = false
  distinct : s.index.Distinct

theorem sound_new : new.Sound := ⟨rfl, RankIndex.distinct_empty⟩

namespace Sound

variable {s : MemoryCertificateStore}

theorem getCertificatesByRound (h : s.Sound) (r : UInt64) :
    s.getCertificatesByRound r = .ok (s.index.atRank r) := by
  rw [MemoryCertificateStore.getCertificatesByRound, if_neg (by simp [h.opened])]

theorem listed (h : s.Sound) (r : UInt64) : listedCertificates s r = s.index.atRank r :=
  listedCertificates_of_ok (h.getCertificatesByRound r)

theorem mem_digests (h : s.Sound) {r : UInt64} :
    d ∈ (listedCertificates s r).map Certificate.digest ↔
      ∃ c, s.index.items.get d = some c ∧ c.round = r := by
  rw [h.listed, List.mem_map]
  constructor
  · intro ⟨c, hc, hd⟩
    obtain ⟨hget, hround⟩ := RankIndex.mem_atRank.mp hc
    exact ⟨c, hd ▸ hget, hround⟩
  · intro ⟨c, hget, hround⟩
    have hd := s.index.keyed hget
    exact ⟨c, RankIndex.mem_atRank.mpr ⟨hd ▸ hget, hround⟩, hd⟩

theorem hasCertificate (h : s.Sound) (d : Hash) :
    s.hasCertificate d = s.index.items.has d := by
  rw [MemoryCertificateStore.hasCertificate, if_neg (by simp [h.opened])]

/-- A save is kept if the digest is free, and nothing otherwise. -/
theorem save_cases (h : s.Sound) (c : Certificate) :
    (s.hasCertificate c.digest = true ∧ (s.saveCertificate c).2 = s) ∨
    (s.hasCertificate c.digest = false ∧ (s.saveCertificate c).2.Sound ∧
      (s.saveCertificate c).2.index.items = s.index.items.set c.digest c) := by
  rw [h.hasCertificate]
  cases hget : s.index.items.get c.digest with
  | some c' =>
    refine .inl ⟨by simp [GoMap.has, hget], ?_⟩
    simp [saveCertificate, h.opened, hget]
  | none =>
    refine .inr ⟨by simp [GoMap.has, hget], ?_⟩
    have hsave : s.saveCertificate c = (.ok (), { s with
        index := s.index.insert c hget
        byValidator := s.byValidator.set c.round
          (((s.byValidator.get c.round).getD ∅).set c.author c.digest) }) := by
      simp [saveCertificate, h.opened, hget]
    rw [hsave]
    exact ⟨⟨h.opened, h.distinct.insert hget⟩, rfl⟩

theorem delete (h : s.Sound) (r : UInt64) :
    (s.deleteCertificatesBefore r).2.Sound ∧
      (s.deleteCertificatesBefore r).2.index = s.index.drop fun r' => decide (r' < r) := by
  have hdelete : (s.deleteCertificatesBefore r).2 = { s with
      index := s.index.drop fun r' => decide (r' < r)
      byValidator := s.byValidator.delAll
        (s.index.byRank.keys.filter fun r' => decide (r' < r)) } := by
    simp [deleteCertificatesBefore, h.opened]
  rw [hdelete]
  exact ⟨⟨h.opened, h.distinct.drop _⟩, rfl⟩

end Sound

/-- A round is listed by digests. -/
instance : TalliesRounds MemoryCertificateStore where
  Key := Hash
  key := Certificate.digest
  sound := Sound
  answers r h := ⟨_, h.getCertificatesByRound r⟩
  nodup r h := by
    rw [h.listed]
    exact h.distinct.nodup_atRank r
  stored h hc := by
    rw [h.listed] at hc
    obtain ⟨hget, hround⟩ := RankIndex.mem_atRank.mp hc
    exact ⟨getCertificate_eq_ok.mpr ⟨h.opened, hget⟩, hround⟩
  has_get _ hhas := by
    obtain ⟨c, hc⟩ := LawfulCertificateStore.hasCertificate_iff.mp hhas
    exact ⟨c, hc, LawfulCertificateStore.digest_eq hc⟩
  save_ok {s} c h := AcceptingCertificateStore.save_ok (s := s) c h.opened
  sound_save {s} c h := by
    change (s.saveCertificate c).2.Sound
    rcases h.save_cases c with ⟨-, hs⟩ | ⟨-, hsound, -⟩
    · rw [hs]
      exact h
    · exact hsound
  has_save {s c d} h := by
    change (s.saveCertificate c).2.hasCertificate d = true ↔
      s.hasCertificate d = true ∨ d = c.digest
    rcases h.save_cases c with ⟨hhas, hs⟩ | ⟨-, hsound, hitems⟩
    · rw [hs]
      exact ⟨.inl, fun hd => hd.elim id fun he => he ▸ hhas⟩
    · rw [hsound.hasCertificate, h.hasCertificate, hitems, GoMap.has_set]
      exact or_comm
  mem_save {s r c k} h := by
    change k ∈ (listedCertificates (s.saveCertificate c).2 r).map Certificate.digest ↔
      k ∈ (listedCertificates s r).map Certificate.digest ∨
        s.hasCertificate c.digest = false ∧ c.round = r ∧ k = c.digest
    rcases h.save_cases c with ⟨hhas, hs⟩ | ⟨hfree, hsound, hitems⟩
    · rw [hs, hhas]
      simp
    · rw [hsound.mem_digests, h.mem_digests, hitems, hfree, GoMap.get_set]
      have hnone : s.index.items.get c.digest = none := by
        rw [h.hasCertificate, GoMap.has] at hfree
        simpa using hfree
      by_cases hk : k = c.digest
      · simp [hk, hnone]
      · simp [hk]
  sound_delete r h := (h.delete r).1
  mem_delete {s r r' k} h hle := by
    change k ∈ (listedCertificates (s.deleteCertificatesBefore r).2 r').map Certificate.digest ↔
      k ∈ (listedCertificates s r').map Certificate.digest
    obtain ⟨hsound, hindex⟩ := h.delete r
    rw [hsound.mem_digests, h.mem_digests, hindex]
    simp only [RankIndex.get_drop, decide_eq_false_iff_not]
    constructor
    · intro ⟨c, hget, hround⟩
      exact ⟨c, hget.1, hround⟩
    · intro ⟨c, hget, hround⟩
      exact ⟨c, ⟨hget, hround ▸ UInt64.not_lt.mpr hle⟩, hround⟩

end MemoryCertificateStore

end DagMempool
