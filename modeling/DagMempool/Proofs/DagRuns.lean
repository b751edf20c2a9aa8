import DagMempool.Dag.Step
import DagMempool.Proofs.CertificateWrites
import DagMempool.Store.Slots
import DagMempool.Types.Ideal

/-!
# What a DAG keeps, and what it forgets

A DAG is two indexes of the same certificates, by slot and by digest. Adding writes
both, and pruning takes a round out of both by the digests found in it, so they agree
after every history in which no two certificates of one digest belong to different
slots. That much of "the digest determines the certificate" is all it takes; nothing is
asked of the store.

The slot is what a second certificate of a round and author is refused by, and a pruned
round has no slots. So the refusal lasts as long as the round stays in memory or comes
back from the store before anything is added to it: a certificate that reaches a pruned
round finds the slot free again, whatever was accepted for it before.
-/

namespace DagMempool

/-- A set of certificates in which a digest belongs to one slot. -/
def DigestsFixSlots (S : Certificate → Prop) : Prop :=
  ∀ c c', S c → S c' → c.digest = c'.digest → c.round = c'.round ∧ c.author = c'.author

namespace Dag

/-! ## The two indexes

A prune finds the digests of a round in its slots and takes them out of the other index. It takes
out the wrong one where a digest has two slots. -/

/-- Both indexes are of the same certificates, all of them of a set. -/
structure Indexed (S : Certificate → Prop) (d : Dag) : Prop where
  index : ∀ digest c, d.certIndex.get digest = some c ↔
    d.slot c.round c.author = some c ∧ c.digest = digest
  shaped : d.Shaped
  highest : ∀ r a c, d.slot r a = some c → c.round ≤ d.highestRound
  within : ∀ r a c, d.slot r a = some c → S c

variable {S : Certificate → Prop} {d d' : Dag}

theorem indexed_new (cfg : DagConfig) : (new cfg).Indexed S where
  index digest c := by simp [new, slot]
  shaped := shaped_new cfg
  highest r a c h := absurd h (by simp)
  within r a c h := absurd h (by simp)

theorem Indexed.congr (h : d.Indexed S) (hslot : ∀ r a, d'.slot r a = d.slot r a)
    (hindex : d'.certIndex = d.certIndex) (hhighest : d'.highestRound = d.highestRound) :
    d'.Indexed S where
  index digest c := by
    rw [hindex, hslot]
    exact h.index digest c
  shaped r a c hc := h.shaped r a c (hslot r a ▸ hc)
  highest r a c hc := by
    rw [hhighest]
    exact h.highest r a c (hslot r a ▸ hc)
  within r a c hc := h.within r a c (hslot r a ▸ hc)

theorem Indexed.ensureRound (h : d.Indexed S) (round : UInt64) :
    (d.ensureRound round).Indexed S :=
  h.congr (slot_ensureRound d round) (certIndex_ensureRound d round)
    (ensureRound_marks d round).2.2

theorem Indexed.setCommittedRound (h : d.Indexed S) (round : UInt64) :
    (d.setCommittedRound round).Indexed S :=
  h.congr (slot_setCommittedRound d round) rfl rfl

theorem Indexed.insertCertificate (hS : DigestsFixSlots S) (h : d.Indexed S) {cert : Certificate}
    (hcert : S cert) (hfree : d.slot cert.round cert.author = none) :
    (d.insertCertificate cert).Indexed S := by
  -- A certificate held before is not in the slot, and so has another digest.
  have hother : ∀ {c}, d.slot c.round c.author = some c →
      ¬ (c.round = cert.round ∧ c.author = cert.author) := by
    rintro c hc ⟨hr, ha⟩
    rw [hr, ha, hfree] at hc
    cases hc
  have hdigest : ∀ {c}, d.slot c.round c.author = some c → c.digest ≠ cert.digest := by
    intro c hc hd
    exact hother hc (hS c cert (h.within _ _ c hc) hcert hd)
  have hhighest : (d.insertCertificate cert).highestRound =
      if d.highestRound < cert.round then cert.round else d.highestRound := rfl
  constructor
  · intro digest c
    rw [certIndex_insertCertificate, slot_insertCertificate]
    constructor
    · intro hget
      rcases GoMap.get_set_eq_some hget with ⟨rfl, rfl⟩ | ⟨-, hold⟩
      · exact ⟨if_pos ⟨rfl, rfl⟩, rfl⟩
      · obtain ⟨hc, hd⟩ := (h.index digest c).mp hold
        rw [if_neg (hother hc)]
        exact ⟨hc, hd⟩
    · rintro ⟨hc, rfl⟩
      split at hc
      · rw [← Option.some.inj hc, GoMap.get_set_self]
      · rw [GoMap.get_set_ne (hdigest hc)]
        exact (h.index c.digest c).mpr ⟨hc, rfl⟩
  · intro r a c hc
    rw [slot_insertCertificate] at hc
    split at hc
    · next hra =>
        rw [← Option.some.inj hc, hra.1, hra.2]
        exact ⟨rfl, rfl⟩
    · exact h.shaped r a c hc
  · intro r a c hc
    rw [slot_insertCertificate] at hc
    rw [hhighest]
    split at hc
    · rw [← Option.some.inj hc]
      split
      · exact UInt64.le_refl _
      · next hlt => exact UInt64.not_lt.mp hlt
    · have hle := h.highest r a c hc
      split
      · next hlt => exact UInt64.le_trans hle (UInt64.le_of_lt hlt)
      · exact hle
  · intro r a c hc
    rw [slot_insertCertificate] at hc
    split at hc
    · rw [← Option.some.inj hc]
      exact hcert
    · exact h.within r a c hc

theorem Indexed.addCertificate {CS : Type} [CertificateStore CS] (hS : DigestsFixSlots S)
    (h : d.Indexed S) (certStore : CS) {cert : Certificate} (hcert : S cert) :
    (d.addCertificate certStore cert).2.1.Indexed S := by
  rcases addCertificate_cases d certStore cert with ⟨err, heq, -⟩ | ⟨hadm, heq⟩
  · rw [heq]
    exact h.ensureRound cert.round
  · rw [heq]
    refine (h.ensureRound cert.round).insertCertificate hS hcert ?_
    rw [slot_ensureRound]
    exact hadm.free

theorem Indexed.drop (hS : DigestsFixSlots S) (h : d.Indexed S) {p : UInt64 → Prop}
    [DecidablePred p]
    (hslot : ∀ r a, d'.slot r a = if p r then none else d.slot r a)
    (hindex : ∀ digest c, d'.certIndex.get digest = some c ↔
      d.certIndex.get digest = some c ∧
        ∀ r a c', p r → d.slot r a = some c' → c'.digest ≠ digest)
    (hhighest : d'.highestRound = d.highestRound) : d'.Indexed S := by
  have hkept : ∀ {r a c}, d'.slot r a = some c → ¬ p r ∧ d.slot r a = some c := by
    intro r a c hc
    rw [hslot] at hc
    split at hc
    · cases hc
    · next hp => exact ⟨hp, hc⟩
  constructor
  · intro digest c
    rw [hindex, h.index]
    constructor
    · rintro ⟨⟨hc, hd⟩, hnone⟩
      rw [hslot, if_neg fun hp => hnone _ _ c hp hc hd]
      exact ⟨hc, hd⟩
    · rintro ⟨hc, hd⟩
      obtain ⟨hp, hold⟩ := hkept hc
      refine ⟨⟨hold, hd⟩, fun r a c' hp' hc' hd' => hp ?_⟩
      have hsame := hS c c' (h.within _ _ c hold) (h.within r a c' hc') (hd.trans hd'.symm)
      rw [hsame.1, (h.shaped r a c' hc').1]
      exact hp'
  · exact fun r a c hc => h.shaped r a c (hkept hc).2
  · intro r a c hc
    rw [hhighest]
    exact h.highest r a c (hkept hc).2
  · exact fun r a c hc => h.within r a c (hkept hc).2

theorem Indexed.pruneRound (hS : DigestsFixSlots S) (h : d.Indexed S) (round : UInt64) :
    (d.pruneRound round).Indexed S := by
  refine h.drop hS (p := fun r => r = round) (slot_pruneRound d round) (fun digest c => ?_) rfl
  rw [certIndex_pruneRound]
  refine and_congr_right fun _ => ⟨?_, fun hnone a c' => hnone round a c' rfl⟩
  rintro hnone r a c' rfl hc'
  exact hnone a c' hc'

theorem Indexed.pruneRoundsBefore (hS : DigestsFixSlots S) (h : d.Indexed S) (round : UInt64) :
    (d.pruneRoundsBefore round).Indexed S :=
  h.drop hS (p := fun r => r < round) (slot_pruneRoundsBefore d round)
    (fun _ _ => certIndex_pruneRoundsBefore_iff) rfl

end Dag

namespace DagState

variable {CS : Type} [CertificateStore CS] {S : Certificate → Prop}

/-- Certificates of a set are added, and no round is loaded. -/
def Feeds (S : Certificate → Prop) : DagEvent → Prop
  | .addCertificate cert => S cert
  | .loadRound _ => False
  | _ => True

instance [DecidablePred S] : DecidablePred (Feeds S)
  | .addCertificate cert => inferInstanceAs (Decidable (S cert))
  | .loadRound _ => .isFalse id
  | .setCommittedRound _ | .pruneRound _ | .pruneRoundsBefore _ | .causalHistory _ =>
    .isTrue trivial

/-- A DAG and its store in memory, both with nothing in them. -/
def idealDag : DagState MemoryCertificateStore :=
  { dag := .new { maxHistoryDepth := 10, maxHistoryCacheSize := 10 }, certStore := .new }

def idealDagRun (events : List DagEvent) : DagState MemoryCertificateStore × List DagOutput :=
  Run.exec step idealDag [] events

theorem reach_idealDagRun {stored : MemoryCertificateStore → Prop}
    {ok : DagState MemoryCertificateStore → List DagOutput → DagEvent → Prop}
    {events : List DagEvent} (hstored : stored .new) (hok : Run.AllOk step ok idealDag [] events) :
    Reach stored ok (idealDagRun events).1 (idealDagRun events).2 :=
  Run.Reach.of_exec ⟨⟨_, rfl⟩, hstored⟩ hok

/-- Two whole rounds in memory and in the store. -/
def twoRounds : DagState MemoryCertificateStore :=
  (idealDagRun ((votedRound 0 ++ votedRound 1).map .addCertificate)).1

theorem reach_twoRounds {stored : MemoryCertificateStore → Prop} (hstored : stored .new) :
    ∃ log, Reach stored (fun _ _ _ => True) twoRounds log :=
  ⟨_, reach_idealDagRun hstored (Run.AllOk.of_forall (fun _ _ _ => trivial) _ _ _)⟩

theorem step_indexed (hS : DigestsFixSlots S) {s : DagState CS} (h : s.dag.Indexed S)
    {e : DagEvent} (he : Feeds S e) : (s.step e).1.dag.Indexed S := by
  cases e with
  | addCertificate cert => exact h.addCertificate hS s.certStore he
  | setCommittedRound round => exact h.setCommittedRound round
  | pruneRound round => exact h.pruneRound hS round
  | pruneRoundsBefore round => exact h.pruneRoundsBefore hS round
  | loadRound round => exact absurd he id
  | causalHistory cert =>
    obtain ⟨cache, keys, heq⟩ := s.dag.sameRounds_causalHistory s.certStore cert
    have hdag : (s.step (.causalHistory cert)).1.dag =
        { s.dag with historyCache := cache, historyCacheKeys := keys } := heq
    rw [hdag]
    exact h.congr (fun _ _ => rfl) rfl rfl

theorem tallies_of_reach [TalliesRounds CS]
    {ok : DagState CS → List DagOutput → DagEvent → Prop} {s : DagState CS}
    {log : List DagOutput} (hreach : Reach TalliesRounds.sound ok s log) :
    TalliesRounds.sound s.certStore := by
  refine Run.Reach.invariant (I := fun s _ => TalliesRounds.sound s.certStore)
    (fun s h => h.2) (fun s log e h _ => ?_) hreach
  cases e with
  | addCertificate cert =>
    rcases Dag.addCertificate_cases s.dag s.certStore cert with ⟨err, heq, -⟩ | ⟨-, heq⟩
    · rw [step, heq]
      exact h
    · rw [step, heq]
      exact TalliesRounds.sound_save cert h
  | setCommittedRound | pruneRound | pruneRoundsBefore | loadRound | causalHistory => exact h

theorem indexed_of_reach (hS : DigestsFixSlots S) {s : DagState CS} {log : List DagOutput}
    (hreach : Reach (fun _ => True) (fun _ _ e => Feeds S e) s log) : s.dag.Indexed S := by
  refine Run.Reach.invariant (I := fun s _ => s.dag.Indexed S) ?_ ?_ hreach
  · rintro s ⟨⟨cfg, hnew⟩, -⟩
    rw [hnew]
    exact Dag.indexed_new cfg
  · exact fun s _ e h he => step_indexed hS h he

/-- After any additions, accepted or not, commits, prunes and history queries, the two
indexes hold the same certificates, each under its own round, author and digest, and the
highest round is not below any of them. -/
theorem indexes_agree (S : Certificate → Prop) (hS : DigestsFixSlots S) {s : DagState CS}
    {log : List DagOutput}
    (hreach : Reach (fun _ => True) (fun _ _ e => Feeds S e) s log) :
    (∀ digest c, s.dag.certIndex.get digest = some c ↔
      s.dag.slot c.round c.author = some c ∧ c.digest = digest) ∧
    (∀ r a c, s.dag.slot r a = some c → c.round = r ∧ c.author = a) ∧
    ∀ r a c, s.dag.slot r a = some c → c.round ≤ s.dag.highestRound := by
  have hindexed := indexed_of_reach hS hreach
  exact ⟨hindexed.index, hindexed.shaped, hindexed.highest⟩

theorem digestsFixSlots_votedRounds : DigestsFixSlots (· ∈ votedRound 0 ++ votedRound 1) := by
  have hall : ∀ c ∈ votedRound 0 ++ votedRound 1, ∀ c' ∈ votedRound 0 ++ votedRound 1,
      c.digest = c'.digest → c.round = c'.round ∧ c.author = c'.author := by decide +kernel
  exact fun c c' hc hc' => hall c hc c' hc'

/-- A round filled, one certificate refused for its parents and one as a duplicate, a
second round begun, the first one committed and pruned. -/
def prunedHistory : List DagEvent :=
  (votedRound 1).map .addCertificate ++ (votedRound 0).map .addCertificate ++
    (votedRound 0).map .addCertificate ++ (votedRound 1).map .addCertificate ++
    [.setCommittedRound 0, .causalHistory (votedCertificate 1 1 [] (votedRound 0)), .pruneRound 0]

theorem indexes_agree_prunedHistory :
    (idealDagRun prunedHistory).1.dag.slot 1 1 = some (votedCertificate 1 1 [] (votedRound 0)) ∧
      (idealDagRun prunedHistory).1.dag.certIndex.get
        (votedCertificate 1 1 [] (votedRound 0)).digest =
          some (votedCertificate 1 1 [] (votedRound 0)) ∧
      1 ≤ (idealDagRun prunedHistory).1.dag.highestRound := by
  have hreach : Reach (fun _ => True) (fun _ _ e => Feeds (· ∈ votedRound 0 ++ votedRound 1) e)
      (idealDagRun prunedHistory).1 (idealDagRun prunedHistory).2 :=
    reach_idealDagRun trivial (by decide +kernel)
  have hslot : (idealDagRun prunedHistory).1.dag.slot 1 1 =
      some (votedCertificate 1 1 [] (votedRound 0)) := by decide +kernel
  have hagree := indexes_agree _ digestsFixSlots_votedRounds hreach
  exact ⟨hslot, (hagree.1 _ _).mpr ⟨hslot, rfl⟩, hagree.2.2 1 1 _ hslot⟩

/-! ## A slot while its round is in memory

While a round is in memory its slots refuse a second certificate. After a prune the store still
lists what was accepted, and a load brings it back. -/

/-- A round that was dropped stays so until it is loaded. -/
def droppedBy (round : UInt64) (dropped : Bool) : DagOutput → Bool
  | .pruned r => dropped || decide (r = round)
  | .prunedBefore r => dropped || decide (round < r)
  | .loaded r (.ok ()) => dropped && decide (r ≠ round)
  | _ => dropped

/-- The round was pruned, and not loaded since. -/
def dropped (round : UInt64) (log : List DagOutput) : Bool := log.foldl (droppedBy round) false

theorem dropped_snoc (round : UInt64) (log : List DagOutput) (o : DagOutput) :
    dropped round (log ++ [o]) = droppedBy round (dropped round log) o := by
  rw [dropped, List.foldl_append]
  rfl

/-- Certificates of a set are added, and where the round was dropped only one with the
digest accepted for the slot before, if any was. -/
def AddsAgain (S : Certificate → Prop) (log : List DagOutput) : DagEvent → Prop
  | .addCertificate cert => S cert ∧
      (dropped cert.round log = true → ∀ c ∈ acceptedCertificates log,
        c.round = cert.round → c.author = cert.author → c.digest = cert.digest)
  | _ => True

instance [DecidablePred S] (log : List DagOutput) : DecidablePred (AddsAgain S log)
  | .addCertificate cert => inferInstanceAs (Decidable (S cert ∧ (_ = true →
      ∀ c ∈ acceptedCertificates log, c.round = _ → c.author = _ → c.digest = _)))
  | .setCommittedRound _ | .pruneRound _ | .pruneRoundsBefore _ | .loadRound _ |
    .causalHistory _ => .isTrue trivial

/-- What is known of the accepted certificates: their slots are taken while their rounds
are in memory, and listed by the store all along. -/
structure Remembers [SlotStore CS] (S : Certificate → Prop) (s : DagState CS)
    (log : List DagOutput) : Prop where
  sound : SlotStore.sound s.certStore
  within : ∀ d c, CertificateStore.getCertificate s.certStore d = .ok c → S c
  listed : ∀ c ∈ acceptedCertificates log, c.author ∈ listedAuthors s.certStore c.round
  taken : ∀ c ∈ acceptedCertificates log, dropped c.round log = false →
    s.dag.slot c.round c.author ≠ none
  agree : ∀ c ∈ acceptedCertificates log, ∀ c' ∈ acceptedCertificates log,
    c.round = c'.round → c.author = c'.author → c.digest = c'.digest

theorem acceptedCertificates_snoc (log : List DagOutput) (o : DagOutput) :
    acceptedCertificates (log ++ [o]) =
      acceptedCertificates log ++ acceptedCertificates [o] :=
  List.filterMap_append

section

variable [SlotStore CS] {s s' : DagState CS} {log : List DagOutput}

theorem Remembers.of_dag (h : Remembers S s log) {o : DagOutput}
    (hstore : s'.certStore = s.certStore) (hnone : acceptedCertificates [o] = [])
    (htaken : ∀ c ∈ acceptedCertificates log,
      droppedBy c.round (dropped c.round log) o = false →
        s'.dag.slot c.round c.author ≠ none) :
    Remembers S s' (log ++ [o]) := by
  have haccepted : acceptedCertificates (log ++ [o]) = acceptedCertificates log := by
    rw [acceptedCertificates_snoc, hnone, List.append_nil]
  constructor
  · rw [hstore]
    exact h.sound
  · rw [hstore]
    exact h.within
  · rw [haccepted, hstore]
    exact h.listed
  · intro c hc hkept
    rw [haccepted] at hc
    rw [dropped_snoc] at hkept
    exact htaken c hc hkept
  · rw [haccepted]
    exact h.agree

theorem Remembers.admit (hS : DigestsFixSlots S) (h : Remembers S s log) {cert : Certificate}
    (hcert : S cert) (hadm : s.dag.Admits s.certStore cert)
    (hagain : dropped cert.round log = true → ∀ c ∈ acceptedCertificates log,
      c.round = cert.round → c.author = cert.author → c.digest = cert.digest)
    (hstore : s'.certStore = (CertificateStore.saveCertificate s.certStore cert).2)
    (hslot : ∀ r a, s'.dag.slot r a =
      if r = cert.round ∧ a = cert.author then some cert else s.dag.slot r a)
    (result : Except GoError Unit) : Remembers S s' (log ++ [.added cert result]) := by
  have hsame : ∀ c, CertificateStore.getCertificate s.certStore cert.digest = .ok c →
      c.round = cert.round ∧ c.author = cert.author := fun c hc =>
    hS c cert (h.within _ c hc) hcert (SlotStore.digest_eq h.sound hc)
  -- The slot was free, so what was accepted for it is of a round that was dropped.
  have hfirst : ∀ c ∈ acceptedCertificates log, c.round = cert.round → c.author = cert.author →
      c.digest = cert.digest := by
    intro c hc hr ha
    refine hagain ?_ c hc hr ha
    by_contra hkept
    refine h.taken c hc ?_ (by rw [hr, ha]; exact hadm.free)
    rw [hr]
    exact Bool.eq_false_iff.mpr hkept
  have hmem : ∀ {c}, c ∈ acceptedCertificates (log ++ [.added cert result]) →
      c ∈ acceptedCertificates log ∨ c = cert := by
    intro c hc
    rw [acceptedCertificates_snoc, List.mem_append] at hc
    refine hc.imp id fun hnew => ?_
    cases result with
    | error err => exact absurd hnew (by simp [acceptedCertificates])
    | ok _ => simpa [acceptedCertificates] using hnew
  constructor
  · rw [hstore]
    exact SlotStore.sound_save cert h.sound
  · intro d c hc
    rw [hstore] at hc
    rcases SlotStore.get_save h.sound hc with hold | rfl
    · exact h.within d c hold
    · exact hcert
  · intro c hc
    rw [hstore]
    rcases hmem hc with hold | rfl
    · exact SlotStore.listed_save cert h.sound (h.listed c hold)
    · exact SlotStore.saved_listed h.sound hsame
  · intro c hc hkept
    rw [hslot]
    split
    · simp
    · next hother =>
        rcases hmem hc with hold | rfl
        · rw [dropped_snoc] at hkept
          exact h.taken c hold hkept
        · exact absurd ⟨rfl, rfl⟩ hother
  · intro c hc c' hc' hr ha
    rcases hmem hc with hold | rfl
    · rcases hmem hc' with hold' | rfl
      · exact h.agree c hold c' hold' hr ha
      · exact hfirst c hold hr ha
    · rcases hmem hc' with hold' | rfl
      · exact (hfirst c' hold' hr.symm ha.symm).symm
      · rfl

theorem step_remembers (hS : DigestsFixSlots S) (h : Remembers S s log) {e : DagEvent}
    (he : AddsAgain S log e) : Remembers S (s.step e).1 (log ++ (s.step e).2) := by
  cases e with
  | addCertificate cert =>
    rcases Dag.addCertificate_cases s.dag s.certStore cert with ⟨err, heq, -⟩ | ⟨hadm, heq⟩
    · have hstep : s.step (.addCertificate cert) =
          ({ s with dag := s.dag.ensureRound cert.round }, [.added cert (.error err)]) := by
        rw [step, heq]
      rw [hstep]
      refine h.of_dag rfl rfl fun c hc hkept => ?_
      rw [Dag.slot_ensureRound]
      exact h.taken c hc hkept
    · refine h.admit hS he.1 hadm he.2 (by rw [step, heq]) (fun r a => ?_) _
      rw [step, heq, Dag.slot_insertCertificate, Dag.slot_ensureRound]
  | setCommittedRound round =>
    refine h.of_dag rfl rfl fun c hc hkept => ?_
    rw [step, Dag.slot_setCommittedRound]
    exact h.taken c hc hkept
  | pruneRound round =>
    refine h.of_dag rfl rfl fun c hc hkept => ?_
    obtain ⟨hkept, hne⟩ := Bool.or_eq_false_iff.mp hkept
    rw [step, Dag.slot_pruneRound, if_neg (Ne.symm (of_decide_eq_false hne))]
    exact h.taken c hc hkept
  | pruneRoundsBefore round =>
    refine h.of_dag rfl rfl fun c hc hkept => ?_
    obtain ⟨hkept, hge⟩ := Bool.or_eq_false_iff.mp hkept
    rw [step, Dag.slot_pruneRoundsBefore, if_neg (of_decide_eq_false hge)]
    exact h.taken c hc hkept
  | loadRound round =>
    refine h.of_dag rfl rfl fun c hc hkept => ?_
    cases hload : (s.dag.loadRound s.certStore round).1 with
    | error err =>
      rw [hload] at hkept
      rw [step, Dag.loadRound_of_error hload]
      exact h.taken c hc hkept
    | ok _ =>
      rw [hload] at hkept
      rw [step, Dag.slot_loadRound hload]
      split
      · next hr =>
          -- The store lists the author, so the load fills the slot.
          have hlisted := h.listed c hc
          rw [listedAuthors, List.mem_map, hr] at hlisted
          obtain ⟨c', hc', ha⟩ := hlisted
          rw [ne_eq, List.find?_eq_none, not_forall]
          exact ⟨c', fun hall => hall (List.mem_reverse.mpr hc') (decide_eq_true ha)⟩
      · next hr =>
          refine h.taken c hc ?_
          rcases Bool.and_eq_false_iff.mp hkept with hkept | heq
          · exact hkept
          · exact absurd (of_decide_eq_false heq) (fun hne => hne (Ne.symm hr))
  | causalHistory cert =>
    refine h.of_dag rfl rfl fun c hc hkept => ?_
    rw [step, (s.dag.sameRounds_causalHistory s.certStore cert).slot]
    exact h.taken c hc hkept

/-- Additions to dropped rounds apart, two certificates accepted for one round and author
have one digest, over any history of additions, commits, prunes and loads. -/
theorem accepted_once_per_slot (S : Certificate → Prop) (hS : DigestsFixSlots S)
    (hreach : Reach
      (fun certStore => SlotStore.sound certStore ∧
        ∀ d c, CertificateStore.getCertificate certStore d = .ok c → S c)
      (fun _ log e => AddsAgain S log e) s log) :
    ∀ c ∈ acceptedCertificates log, ∀ c' ∈ acceptedCertificates log,
      c.round = c'.round → c.author = c'.author → c.digest = c'.digest := by
  have hremembers : Remembers S s log := by
    refine Run.Reach.invariant (I := Remembers S) ?_ ?_ hreach
    · rintro s ⟨-, hsound, hwithin⟩
      have hnone : ∀ c, c ∉ acceptedCertificates [] := fun c => List.not_mem_nil
      exact ⟨hsound, hwithin, fun c hc => absurd hc (hnone c), fun c hc => absurd hc (hnone c),
        fun c hc => absurd hc (hnone c)⟩
    · exact fun s log e h he => step_remembers hS h he
  exact hremembers.agree

end

def rivalCertificates : List Certificate :=
  [votedCertificate 1 0 [] [], votedCertificate 1 0 [⟨1, 1, 1⟩] []]

/-- The first is added, and the round pruned; the first again, pruned and loaded back; then
the second. -/
def reloadedHistory : List DagEvent :=
  [.addCertificate (votedCertificate 1 0 [] []), .pruneRound 0,
    .addCertificate (votedCertificate 1 0 [] []), .pruneRoundsBefore 1, .loadRound 0,
    .addCertificate (votedCertificate 1 0 [⟨1, 1, 1⟩] [])]

theorem accepted_once_per_slot_reloaded :
    (acceptedCertificates (idealDagRun reloadedHistory).2).length = 2 ∧
      ∀ c ∈ acceptedCertificates (idealDagRun reloadedHistory).2,
        ∀ c' ∈ acceptedCertificates (idealDagRun reloadedHistory).2,
          c.round = c'.round → c.author = c'.author → c.digest = c'.digest := by
  have hfix : DigestsFixSlots (· ∈ rivalCertificates) := by
    have hall : ∀ c ∈ rivalCertificates, ∀ c' ∈ rivalCertificates,
        c.digest = c'.digest → c.round = c'.round ∧ c.author = c'.author := by decide +kernel
    exact fun c c' hc hc' => hall c hc c' hc'
  refine ⟨by decide +kernel, accepted_once_per_slot (· ∈ rivalCertificates) hfix
    (reach_idealDagRun ⟨MemoryCertificateStore.sound_new, fun d c hc => ?_⟩ (by decide +kernel))⟩
  obtain ⟨-, hget⟩ := MemoryCertificateStore.getCertificate_eq_ok.mp hc
  exact absurd hget GoMap.get_empty_ne

/-- The first is added, its round is pruned, and the second is added too. -/
def prunedRivals : List DagEvent :=
  [.addCertificate (votedCertificate 1 0 [] []), .pruneRound 0,
    .addCertificate (votedCertificate 1 0 [⟨1, 1, 1⟩] [])]

/-- Both are accepted: the prune gave the slot free. -/
theorem accepted_twice_after_prune :
    Reach (fun _ => True) (fun _ _ _ => True) (idealDagRun prunedRivals).1
        (idealDagRun prunedRivals).2 ∧
      ∃ c ∈ acceptedCertificates (idealDagRun prunedRivals).2,
        ∃ c' ∈ acceptedCertificates (idealDagRun prunedRivals).2,
          c.round = c'.round ∧ c.author = c'.author ∧ c.digest ≠ c'.digest := by
  refine ⟨reach_idealDagRun trivial (Run.AllOk.of_forall (fun _ _ _ => trivial) _ _ _), ?_⟩
  decide +kernel

end DagState

end DagMempool
