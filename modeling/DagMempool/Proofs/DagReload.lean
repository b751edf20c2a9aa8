import DagMempool.Proofs.DagRuns
import DagMempool.Proofs.OrderedCertificates
import DagMempool.Store.Ideal

/-!
# A DAG loaded from its store

While certificates are only added, the store holds what the rounds hold: an addition that
passes the checks finds its slot free, so its digest is new to the store and its slot is
not listed there, and an addition that fails changes neither. What is loaded is then what
was there, though the rounds a rejected certificate leaves behind, and those between, may
differ: they are empty on either side.
-/

namespace DagMempool

/-- A set of certificates in which a digest determines the certificate. -/
def DigestsFixCertificates (S : Certificate → Prop) : Prop :=
  ∀ c c', S c → S c' → c.digest = c'.digest → c = c'

theorem DigestsFixCertificates.slots {S : Certificate → Prop} (h : DigestsFixCertificates S) :
    DigestsFixSlots S := by
  intro c c' hc hc' hd
  rw [h c c' hc hc' hd]
  exact ⟨rfl, rfl⟩

namespace Dag

variable {CS : Type} [CertificateStore CS] {d d' : Dag} {certStore : CS}

theorem certificateCount_congr {r : UInt64} (h : ∀ a, d'.slot r a = d.slot r a) :
    d'.certificateCount r = d.certificateCount r := by
  -- A round that is missing counts as an empty one.
  have hcount : ∀ e : Dag, e.certificateCount r =
      ((e.rounds.get r).getD (.new r)).certificates.len := by
    intro e
    unfold certificateCount
    cases e.rounds.get r <;> rfl
  have hslot : ∀ (e : Dag) a, e.slot r a =
      ((e.rounds.get r).getD (.new r)).certificates.get a := by
    intro e a
    unfold slot
    cases e.rounds.get r with
    | none => exact (GoMap.get_empty a).symm
    | some rd => rfl
  rw [hcount, hcount]
  refine GoMap.len_congr fun a => ?_
  rw [← hslot, ← hslot, h]

/-- The store lists what the rounds hold. -/
def Lists (d : Dag) (certStore : CS) : Prop :=
  ∀ r c, c ∈ listedCertificates certStore r ↔ d.slot r c.author = some c

theorem Lists.mem_round (h : d.Lists certStore) (hshaped : d.Shaped)
    (order : IterOrder Certificate) {r : UInt64} {c : Certificate} :
    c ∈ d.getCertificatesForRound certStore order r ↔ d.slot r c.author = some c := by
  cases hr : d.rounds.get r with
  | none =>
    rw [getCertificatesForRound_of_none hr]
    exact h r c
  | some rd =>
    have hslot : ∀ a, d.slot r a = rd.certificates.get a := by
      intro a
      rw [slot, hr]
    rw [getCertificatesForRound, hr]
    dsimp only
    rw [RoundData.getAllCertificates, order.mem_arrange, GoMap.mem_values]
    constructor
    · rintro ⟨a, ha⟩
      rw [← hslot] at ha
      rw [(hshaped r a c ha).2]
      exact ha
    · intro hc
      exact ⟨c.author, by rw [← hslot]; exact hc⟩

theorem Lists.listsRound (h : d.Lists certStore) (hshaped : d.Shaped)
    (order : IterOrder Certificate) (r : UInt64) : d.ListsRound certStore order r := by
  refine ⟨fun c hc => (hshaped r _ c ((h.mem_round hshaped order).mp hc)).1, ?_⟩
  cases hr : d.rounds.get r with
  | none =>
    have hnil : d.getCertificatesForRound certStore order r = [] := by
      refine List.eq_nil_iff_forall_not_mem.mpr fun c hc => ?_
      have hslot := (h.mem_round hshaped order).mp hc
      rw [slot, hr] at hslot
      cases hslot
    rw [hnil]
    exact List.nodup_nil
  | some rd =>
    rw [getCertificatesForRound, hr]
    exact ((order.perm _).map _).nodup_iff.mpr (hshaped.authors hr)

/-- Two DAGs with the same slots over a store that lists them give the same ordered
certificates, in whatever order their maps are walked. -/
theorem Lists.ordered_congr [SliceSort] (h : d.Lists certStore) (h' : d'.Lists certStore)
    (hshaped : d.Shaped) (hshaped' : d'.Shaped) (hslot : ∀ r a, d'.slot r a = d.slot r a)
    (order order' : IterOrder Certificate) (fromRound : UInt64) {toRound : UInt64}
    (hlast : toRound.toNat < 2 ^ 64 - 1) :
    ∃ certs, d.getOrderedCertificates certStore order fromRound toRound = some certs ∧
      d'.getOrderedCertificates certStore order' fromRound toRound = some certs := by
  obtain ⟨certs, hcerts, hsorted, hmem⟩ := getOrderedCertificates_spec hlast
    fun r (_ : fromRound ≤ r) _ => h.listsRound hshaped order r
  obtain ⟨certs', hcerts', hsorted', hmem'⟩ := getOrderedCertificates_spec hlast
    fun r (_ : fromRound ≤ r) _ => h'.listsRound hshaped' order' r
  refine ⟨certs, hcerts, hcerts'.trans ?_⟩
  have heq : certs' = certs := by
    refine Certificate.eq_of_pairwise_before hsorted' hsorted fun c => ?_
    rw [hmem, hmem', h.mem_round hshaped, h'.mem_round hshaped', hslot]
  rw [heq]

end Dag

namespace DagState

variable {CS : Type} [CertificateStore CS] [ReadsBack CS] {S : Certificate → Prop}
variable {s : DagState CS}

/-! ## The store mirrors the rounds

An addition is saved exactly if it enters a round, and then under a digest and a slot that the
store does not have. -/

/-- The store holds what the rounds hold, by digest and by round, and has the same highest
round. -/
structure Mirrored (S : Certificate → Prop) (s : DagState CS) : Prop where
  indexed : s.dag.Indexed S
  sound : SlotStore.sound s.certStore
  held : ∀ digest c, CertificateStore.getCertificate s.certStore digest = .ok c ↔
    s.dag.slot c.round c.author = some c ∧ c.digest = digest
  listed : s.dag.Lists s.certStore
  highest : CertificateStore.highestRound s.certStore = s.dag.highestRound
  below : s.dag.highestRound.toNat < 2 ^ 64 - 1

/-- Certificates of the set are added, and nothing else is done. -/
def Adds (S : Certificate → Prop) : DagEvent → Prop
  | .addCertificate cert => S cert
  | _ => False

instance [DecidablePred S] : DecidablePred (Adds S)
  | .addCertificate cert => inferInstanceAs (Decidable (S cert))
  | .setCommittedRound _ | .pruneRound _ | .pruneRoundsBefore _ | .loadRound _ |
    .causalHistory _ => .isFalse id

/-- A store with nothing in it. -/
structure Blank (certStore : CS) : Prop where
  sound : SlotStore.sound certStore
  held : ∀ digest c, CertificateStore.getCertificate certStore digest ≠ .ok c
  listed : ∀ r, listedCertificates certStore r = []
  highest : CertificateStore.highestRound certStore = 0

theorem mirrored_new (cfg : DagConfig) {certStore : CS} (h : Blank certStore) :
    Mirrored S { dag := .new cfg, certStore } where
  indexed := Dag.indexed_new cfg
  sound := h.sound
  held digest c := by simp [h.held]
  listed r c := by simp [h.listed]
  highest := h.highest
  below := by simp [Dag.new]

theorem Mirrored.new_to_store (hS : DigestsFixCertificates S) (h : s.Mirrored S)
    {cert : Certificate} (hcert : S cert) (hadm : s.dag.Admits s.certStore cert) :
    (∀ c, CertificateStore.getCertificate s.certStore cert.digest ≠ .ok c) ∧
      cert.author ∉ listedAuthors s.certStore cert.round := by
  constructor
  · intro c hc
    obtain ⟨hslot, hd⟩ := (h.held _ c).mp hc
    rw [hS c cert (h.indexed.within _ _ c hslot) hcert hd, hadm.free] at hslot
    cases hslot
  · intro hauthor
    obtain ⟨c, hc, ha⟩ := List.mem_map.mp hauthor
    have hslot := (h.listed cert.round c).mp hc
    rw [ha, hadm.free] at hslot
    cases hslot

theorem Mirrored.insert (hS : DigestsFixCertificates S)
    (hlast : ∀ c, S c → c.round.toNat < 2 ^ 64 - 1) (h : s.Mirrored S) {cert : Certificate}
    (hcert : S cert) (hadm : s.dag.Admits s.certStore cert) :
    Mirrored S { dag := (s.dag.ensureRound cert.round).insertCertificate cert
                 certStore := (CertificateStore.saveCertificate s.certStore cert).2 } := by
  obtain ⟨hnew, hauthor⟩ := h.new_to_store hS hcert hadm
  have hslot : ∀ r a, ((s.dag.ensureRound cert.round).insertCertificate cert).slot r a =
      if r = cert.round ∧ a = cert.author then some cert else s.dag.slot r a := by
    intro r a
    rw [Dag.slot_insertCertificate, Dag.slot_ensureRound]
  have hhighest : ((s.dag.ensureRound cert.round).insertCertificate cert).highestRound =
      if s.dag.highestRound < cert.round then cert.round else s.dag.highestRound := by
    rw [← (Dag.ensureRound_marks s.dag cert.round).2.2]
    rfl
  -- What held a slot before did not hold this one.
  have hother : ∀ {r a c}, s.dag.slot r a = some c → ¬ (r = cert.round ∧ a = cert.author) := by
    rintro r a c hc ⟨rfl, rfl⟩
    exact absurd (hadm.free.symm.trans hc) (by simp)
  refine ⟨?_, SlotStore.sound_save cert h.sound, fun digest c => ?_, fun r c => ?_, ?_, ?_⟩
  · refine (h.indexed.ensureRound cert.round).insertCertificate hS.slots hcert ?_
    rw [Dag.slot_ensureRound]
    exact hadm.free
  · rw [hslot]
    constructor
    · intro hget
      rcases SlotStore.get_save h.sound hget with hold | rfl
      · obtain ⟨hc, hd⟩ := (h.held digest c).mp hold
        rw [if_neg (hother hc)]
        exact ⟨hc, hd⟩
      · exact ⟨if_pos ⟨rfl, rfl⟩,
          SlotStore.digest_eq (SlotStore.sound_save _ h.sound) hget⟩
    · rintro ⟨hc, rfl⟩
      split at hc
      · rw [← Option.some.inj hc]
        exact ReadsBack.saved h.sound hnew
      · exact ReadsBack.save_keeps cert h.sound ((h.held _ c).mpr ⟨hc, rfl⟩)
  · rw [hslot, ReadsBack.mem_save h.sound hnew hauthor, h.listed]
    constructor
    · rintro (hc | ⟨rfl, rfl⟩)
      · rw [if_neg (hother hc)]
        exact hc
      · exact if_pos ⟨rfl, rfl⟩
    · intro hc
      split at hc
      · next hra => exact .inr ⟨(Option.some.inj hc).symm, hra.1⟩
      · exact .inl hc
  · rw [hhighest, ReadsBack.highestRound_save h.sound hnew, h.highest]
  · rw [hhighest]
    split
    · exact hlast cert hcert
    · exact h.below

theorem step_mirrored (hS : DigestsFixCertificates S)
    (hlast : ∀ c, S c → c.round.toNat < 2 ^ 64 - 1) (h : s.Mirrored S) {e : DagEvent}
    (he : Adds S e) : (s.step e).1.Mirrored S := by
  cases e with
  | addCertificate cert =>
    rcases Dag.addCertificate_cases s.dag s.certStore cert with ⟨err, heq, -⟩ | ⟨hadm, heq⟩
    · rw [step, heq]
      have hmarks := (Dag.ensureRound_marks s.dag cert.round).2.2
      refine ⟨h.indexed.ensureRound cert.round, h.sound, fun digest c => ?_, fun r c => ?_, ?_,
        ?_⟩
      · rw [Dag.slot_ensureRound]
        exact h.held digest c
      · rw [Dag.slot_ensureRound]
        exact h.listed r c
      · exact h.highest.trans hmarks.symm
      · rw [hmarks]
        exact h.below
    · rw [step, heq]
      exact h.insert hS hlast he hadm
  | _ => exact absurd he id

/-! ## Loading

A DAG that is loaded asks its store round by round. What it finds in a round, by author, is what
was there. -/

/-- A DAG loaded from the store answers as the one at hand. -/
structure Rebuilds [SliceSort] (s : DagState CS) (loaded : Dag) : Prop where
  highestRound : loaded.highestRound = s.dag.highestRound
  certificateCount : ∀ r, loaded.certificateCount r = s.dag.certificateCount r
  getCertificate : ∀ digest,
    loaded.getCertificate s.certStore digest = s.dag.getCertificate s.certStore digest
  ordered : ∀ order order' : IterOrder Certificate, ∃ certs,
    loaded.getOrderedCertificates s.certStore order 0 loaded.highestRound = some certs ∧
      s.dag.getOrderedCertificates s.certStore order' 0 s.dag.highestRound = some certs

omit [ReadsBack CS] in
theorem getCertificate_of_index {d : Dag} {certStore : CS} {digest : Hash}
    (h : ∀ c, d.certIndex.get digest = some c →
      CertificateStore.getCertificate certStore digest = .ok c) :
    d.getCertificate certStore digest = CertificateStore.getCertificate certStore digest := by
  unfold Dag.getCertificate
  split
  · next c hc => exact (h c hc).symm
  · rfl

theorem Mirrored.find_listed (h : s.Mirrored S) (r : UInt64) (a : UInt16) :
    ((listedCertificates s.certStore r).reverse.find? fun c => decide (c.author = a)) =
      s.dag.slot r a := by
  cases hfind : (listedCertificates s.certStore r).reverse.find?
      fun c => decide (c.author = a) with
  | none =>
    cases hslot : s.dag.slot r a with
    | none => rfl
    | some c =>
      have ha := (h.indexed.shaped r a c hslot).2
      have hlisted := List.mem_reverse.mpr ((h.listed r c).mpr (ha.symm ▸ hslot))
      exact absurd (decide_eq_true ha) (List.find?_eq_none.mp hfind c hlisted)
  | some c =>
    have hc := (h.listed r c).mp (List.mem_reverse.mp (List.mem_of_find?_eq_some hfind))
    have ha : c.author = a := by simpa using List.find?_some hfind
    rw [ha] at hc
    exact hc.symm

theorem Mirrored.rebuilds [SliceSort] (h : s.Mirrored S) (cfg : DagConfig) :
    ∃ loaded, (Dag.new cfg).loadRoundsFrom s.certStore 0 = some (.ok (), loaded) ∧
      s.Rebuilds loaded := by
  have hbelow := h.below
  rw [← h.highest] at hbelow
  obtain ⟨loaded, hload, hhighest, hslots⟩ := (Dag.new cfg).loadRoundsFrom_spec hbelow
    fun r _ _ => ReadsBack.answers r h.sound
  have hslot : ∀ r a, loaded.slot r a = s.dag.slot r a := by
    intro r a
    rw [hslots, h.highest]
    split
    · exact h.find_listed r a
    · next hout =>
        rw [Dag.slot_new]
        cases hslot : s.dag.slot r a with
        | none => rfl
        | some c =>
          have hr := (h.indexed.shaped r a c hslot).1
          exact absurd ⟨UInt64.zero_le, hr ▸ h.indexed.highest r a c hslot⟩ hout
  have hshaped : loaded.Shaped := fun r a c hc => h.indexed.shaped r a c (hslot r a ▸ hc)
  have hlists : loaded.Lists s.certStore := fun r c => by
    rw [hslot]
    exact h.listed r c
  have htop : loaded.highestRound = s.dag.highestRound := by
    have hmax := hhighest UInt64.zero_le
    rw [← h.highest]
    refine UInt64.toNat_inj.mp (hmax.trans (Nat.max_eq_right ?_))
    exact Nat.zero_le _
  refine ⟨loaded, hload, htop, fun r => Dag.certificateCount_congr fun a => hslot r a,
    fun digest => ?_, fun order order' => ?_⟩
  · rw [getCertificate_of_index, getCertificate_of_index]
    · intro c hc
      exact (h.held digest c).mpr ((h.indexed.index digest c).mp hc)
    · intro c hc
      rcases Dag.certIndex_loadLoop hload hc with hnew | ⟨r, hlisted, rfl⟩
      · exact absurd hnew GoMap.get_empty_ne
      · exact (ReadsBack.stored h.sound hlisted).1
  · rw [htop]
    exact hlists.ordered_congr h.listed hshaped h.indexed.shaped (fun r a => (hslot r a).symm)
      order order' 0 h.below

theorem mirrored_of_reach (hS : DigestsFixCertificates S)
    (hlast : ∀ c, S c → c.round.toNat < 2 ^ 64 - 1) {new : CS} (hnew : Blank new)
    {log : List DagOutput} (hreach : Reach (· = new) (fun _ _ e => Adds S e) s log) :
    s.Mirrored S := by
  refine Run.Reach.invariant (I := fun s _ => s.Mirrored S) ?_ ?_ hreach
  · rintro ⟨dag, certStore⟩ ⟨⟨cfg, rfl⟩, rfl⟩
    exact mirrored_new cfg hnew
  · exact fun s _ e h he => step_mirrored hS hlast h he

theorem blank_memory : Blank MemoryCertificateStore.new where
  sound := MemoryCertificateStore.sound_new
  held digest c hc := by
    obtain ⟨-, hget⟩ := MemoryCertificateStore.getCertificate_eq_ok.mp hc
    exact absurd hget GoMap.get_empty_ne
  listed r := by
    refine List.eq_nil_iff_forall_not_mem.mpr fun c hc => ?_
    have hget := (ReadsBack.stored MemoryCertificateStore.sound_new hc).1
    obtain ⟨-, hget⟩ := MemoryCertificateStore.getCertificate_eq_ok.mp hget
    exact absurd hget GoMap.get_empty_ne
  highest := rfl

theorem blank_levelDB [Cramberry Certificate] : Blank LevelDBCertificateStore.new where
  sound := LevelDBCertificateStore.listed_new
  held digest c hc := by
    have hheld := LevelDBCertificateStore.represents_new.getCertificate_eq_ok.mp hc
    cases hheld
  listed r := by
    refine List.eq_nil_iff_forall_not_mem.mpr fun c hc => ?_
    have hheld := (LevelDBCertificateStore.represents_new.mem_listed.mp hc).1
    cases hheld
  highest := LevelDBCertificateStore.represents_new.highest

/-- After any additions to an empty DAG over an empty store, in memory or on disk, a new DAG
that loads the store answers as the one that was built. -/
theorem loading_rebuilds [SliceSort] [Cramberry Certificate] (S : Certificate → Prop)
    (hS : DigestsFixCertificates S) (hlast : ∀ c, S c → c.round.toNat < 2 ^ 64 - 1)
    (cfg : DagConfig) :
    (∀ (s : DagState MemoryCertificateStore) (log : List DagOutput),
      Reach (· = .new) (fun _ _ e => Adds S e) s log →
        ∃ loaded, (Dag.new cfg).loadRoundsFrom s.certStore 0 = some (.ok (), loaded) ∧
          s.Rebuilds loaded) ∧
    ∀ (s : DagState LevelDBCertificateStore) (log : List DagOutput),
      Reach (· = .new) (fun _ _ e => Adds S e) s log →
        ∃ loaded, (Dag.new cfg).loadRoundsFrom s.certStore 0 = some (.ok (), loaded) ∧
          s.Rebuilds loaded := by
  constructor
  · intro s log hreach
    exact (mirrored_of_reach hS hlast blank_memory hreach).rebuilds cfg
  · intro s log hreach
    exact (mirrored_of_reach hS hlast blank_levelDB hreach).rebuilds cfg

section

attribute [local instance] SliceSort.stable idealCertificateCramberry

/-- A round above the first that is refused for its parents, the first twice, and the one
above it. -/
def refusedFirst : List DagEvent :=
  (votedRound 1 ++ votedRound 0 ++ votedRound 0 ++ votedRound 1).map .addCertificate

theorem loading_rebuilds_refusedFirst :
    ∃ loaded, (Dag.new { maxHistoryDepth := 1, maxHistoryCacheSize := 0 }).loadRoundsFrom
        (idealDagRun refusedFirst).1.certStore 0 = some (.ok (), loaded) ∧
      loaded.highestRound = 1 ∧ loaded.certificateCount 1 = 3 ∧
      loaded.getCertificate (idealDagRun refusedFirst).1.certStore
        (votedCertificate 1 1 [] (votedRound 0)).digest =
          .ok (votedCertificate 1 1 [] (votedRound 0)) := by
  have hfix : DigestsFixCertificates (· ∈ votedRound 0 ++ votedRound 1) := by
    have hall : ∀ c ∈ votedRound 0 ++ votedRound 1, ∀ c' ∈ votedRound 0 ++ votedRound 1,
        c.digest = c'.digest → c = c' := by decide +kernel
    exact fun c c' hc hc' => hall c hc c' hc'
  have hlast : ∀ c ∈ votedRound 0 ++ votedRound 1, c.round.toNat < 2 ^ 64 - 1 := by
    decide +kernel
  obtain ⟨loaded, hload, hrebuilds⟩ := (loading_rebuilds _ hfix hlast
    { maxHistoryDepth := 1, maxHistoryCacheSize := 0 }).1 _ _
    (reach_idealDagRun rfl (show Run.AllOk step (fun _ _ e => Adds _ e) idealDag [] refusedFirst by
      decide +kernel))
  refine ⟨loaded, hload, ?_, ?_, ?_⟩
  · rw [hrebuilds.highestRound]
    decide +kernel
  · rw [hrebuilds.certificateCount]
    decide +kernel
  · rw [hrebuilds.getCertificate]
    decide +kernel

end

end DagState

end DagMempool
