import DagMempool.Lib.Run
import DagMempool.Store.Ideal
import DagMempool.Store.LevelDBCertificate
import DagMempool.Store.MemoryCertificate

/-!
# Where the two certificate stores part

The store in memory lists a round by the digests saved for it; the store on disk lists
it by slots, one for each author. The store in memory computes the highest round from
what it holds; the store on disk keeps a counter. As long as no certificate takes the
slot of another one, and no deletion removes the highest round, the two cannot be told
apart: the slots on disk are those of the third map in memory, every certificate is in
its slot, and the counter is the highest round. Either of the two going wrong shows in
an answer.
-/

namespace DagMempool

inductive CertificateCall where
  | save (cert : Certificate)
  | get (digest : Hash)
  | has (digest : Hash)
  | byRound (round : UInt64)
  | forValidator (round : UInt64) (validator : UInt16)
  | deleteBefore (round : UInt64)
  | highestRound

inductive CertificateAnswer where
  | done (result : Except GoError Unit)
  | cert (result : Except GoError Certificate)
  | has (result : Bool)
  | certs (result : Except GoError (List Certificate))
  | round (result : UInt64)
  deriving DecidableEq

namespace CertificateCall

/-- The store after a call, and its answer. -/
def run {S : Type} [CertificateStore S] (s : S) : CertificateCall → S × List CertificateAnswer
  | save c =>
    ((CertificateStore.saveCertificate s c).2,
      [.done (CertificateStore.saveCertificate s c).1])
  | get d => (s, [.cert (CertificateStore.getCertificate s d)])
  | has d => (s, [.has (CertificateStore.hasCertificate s d)])
  | byRound r => (s, [.certs (CertificateStore.getCertificatesByRound s r)])
  | forValidator r a => (s, [.cert (CertificateStore.getCertificateForValidator s r a)])
  | deleteBefore r =>
    ((CertificateStore.deleteCertificatesBefore s r).2,
      [.done (CertificateStore.deleteCertificatesBefore s r).1])
  | highestRound => (s, [.round (CertificateStore.highestRound s)])

end CertificateCall

namespace CertificateAnswer

/-- The same answer, with the certificates of a round as a set. -/
def Same : CertificateAnswer → CertificateAnswer → Prop
  | certs (.ok cs), certs (.ok cs') => ∀ c, c ∈ cs ↔ c ∈ cs'
  | a, a' => a = a'

end CertificateAnswer

/-- The call leaves every certificate in its slot, and the highest round held. -/
def CertificateCall.Spares (m : MemoryCertificateStore) : CertificateCall → Prop
  | save c => m.hasCertificate c.digest = true ∨
      ∀ c' ∈ m.index.atRank c.round, c'.author ≠ c.author
  | deleteBefore r => m.highestRound = 0 ∨ r ≤ m.highestRound
  | _ => True

instance (m : MemoryCertificateStore) (call : CertificateCall) : Decidable (call.Spares m) := by
  cases call <;> unfold CertificateCall.Spares <;> infer_instance

namespace MemoryCertificateStore

/-- The digest saved last for a round and a validator. -/
def slot (m : MemoryCertificateStore) (r : UInt64) (a : UInt16) : Option Hash :=
  (m.byValidator.get r).bind fun validators => validators.get a

end MemoryCertificateStore

section

variable [Cramberry Certificate]

/-- Both are open, the bytes on disk stand for the three maps in memory, and every
certificate is in its slot. -/
structure SameCertificates (m : MemoryCertificateStore) (s : LevelDBCertificateStore) :
    Prop where
  opened : m.closed = false
  represents : s.Represents m.index.items.get m.slot m.highestRound
  slotted : ∀ {d c}, m.index.items.get d = some c → m.slot c.round c.author = some d

namespace SameCertificates

variable {m : MemoryCertificateStore} {s : LevelDBCertificateStore}

theorem start : SameCertificates .new .new where
  opened := rfl
  represents := by
    have hitems : (MemoryCertificateStore.new.index.items.get : Hash → Option Certificate) =
        fun _ => none := funext GoMap.get_empty
    have hslot : MemoryCertificateStore.new.slot = fun _ _ => none := by
      funext r a
      rw [MemoryCertificateStore.slot, show MemoryCertificateStore.new.byValidator = ∅ from rfl,
        GoMap.get_empty, Option.bind_none]
    rw [hitems, hslot]
    exact LevelDBCertificateStore.represents_new
  slotted h := absurd h GoMap.get_empty_ne

theorem saveCertificate (h : SameCertificates m s) {c : Certificate}
    (hspares : CertificateCall.Spares m (.save c)) :
    SameCertificates (m.saveCertificate c).2 (s.saveCertificate c).2 ∧
      (m.saveCertificate c).1 = (s.saveCertificate c).1 := by
  cases hget : m.index.items.get c.digest with
  | some c' =>
    have hsave : m.saveCertificate c = (.ok (), m) := by
      simp [MemoryCertificateStore.saveCertificate, h.opened, hget]
    rw [hsave, h.represents.saveCertificate_held (by simp [hget])]
    exact ⟨h, rfl⟩
  | none =>
    have hsave : m.saveCertificate c = (.ok (), { m with
        index := m.index.insert c hget
        byValidator := m.byValidator.set c.round
          (((m.byValidator.get c.round).getD ∅).set c.author c.digest) }) := by
      simp [MemoryCertificateStore.saveCertificate, h.opened, hget]
    have hitems : ∀ d, (m.saveCertificate c).2.index.items.get d =
        if d = c.digest then some c else m.index.items.get d := by
      intro d
      rw [hsave]
      exact m.index.items.get_set c.digest d c
    have hslot : ∀ r a, (m.saveCertificate c).2.slot r a =
        if r = c.round ∧ a = c.author then some c.digest else m.slot r a := by
      intro r a
      rw [hsave, MemoryCertificateStore.slot, MemoryCertificateStore.slot, GoMap.get_set]
      by_cases hr : r = c.round
      · subst hr
        rw [if_pos rfl, Option.bind_some, GoMap.get_set]
        cases hround : m.byValidator.get c.round <;> simp
      · rw [if_neg hr, if_neg fun hra => hr hra.1]
    -- Nothing held is of the round and author of the new certificate.
    have hother : ∀ {d c'}, m.index.items.get d = some c' →
        ¬ (c'.round = c.round ∧ c'.author = c.author) := by
      intro d c' hd hsame
      rcases hspares with hhas | hfree
      · obtain ⟨-, c'', hc''⟩ := MemoryCertificateStore.hasCertificate_eq_true.mp hhas
        exact absurd (hc''.symm.trans hget) (by simp)
      · refine hfree c' (RankIndex.mem_atRank.mpr ⟨?_, hsame.1⟩) hsame.2
        rw [m.index.keyed hd]
        exact hd
    obtain ⟨hok, hrep⟩ := h.represents.saveCertificate_free hget hitems hslot
    rw [← m.highestRound_insert hget (m.byValidator.set c.round
      (((m.byValidator.get c.round).getD ∅).set c.author c.digest))] at hrep
    refine ⟨⟨?_, ?_, ?_⟩, ?_⟩
    · rw [hsave]
      exact h.opened
    · rw [hsave] at hrep ⊢
      exact hrep
    · intro d c' hd
      rw [hitems] at hd
      rw [hslot]
      split at hd
      · next heq =>
          obtain rfl := Option.some.inj hd
          rw [if_pos ⟨rfl, rfl⟩, heq]
      · rw [if_neg (hother hd)]
        exact h.slotted hd
    · rw [hsave, hok]

theorem deleteCertificatesBefore (h : SameCertificates m s) {round : UInt64}
    (hspares : CertificateCall.Spares m (.deleteBefore round)) :
    SameCertificates (m.deleteCertificatesBefore round).2 (s.deleteCertificatesBefore round).2 ∧
      (m.deleteCertificatesBefore round).1 = (s.deleteCertificatesBefore round).1 := by
  have hdelete : m.deleteCertificatesBefore round = (.ok (), { m with
      index := m.index.drop fun r => decide (r < round)
      byValidator := m.byValidator.delAll
        (m.index.byRank.keys.filter fun r => decide (r < round)) }) := by
    simp [MemoryCertificateStore.deleteCertificatesBefore, h.opened]
  have hitems : ∀ d c, (m.deleteCertificatesBefore round).2.index.items.get d = some c ↔
      m.index.items.get d = some c ∧
        ¬ (c.round < round ∧ m.slot c.round c.author = some d) := by
    intro d c
    rw [hdelete, RankIndex.get_drop, decide_eq_false_iff_not]
    constructor
    · rintro ⟨hd, hle⟩
      exact ⟨hd, fun hgone => hle hgone.1⟩
    · rintro ⟨hd, hkeep⟩
      exact ⟨hd, fun hlt => hkeep ⟨hlt, h.slotted hd⟩⟩
  -- A slot that is filled is of a round that is listed.
  have hslot : ∀ r a d, (m.deleteCertificatesBefore round).2.slot r a = some d ↔
      m.slot r a = some d ∧ ¬ r < round := by
    intro r a d
    rw [hdelete, MemoryCertificateStore.slot, GoMap.get_delAll]
    constructor
    · intro hd
      split at hd
      · cases hd
      · next hkeep =>
          refine ⟨hd, fun hlt => hkeep ?_⟩
          obtain ⟨c, hc, rfl, -⟩ := h.represents.filled hd
          obtain ⟨ds, hds, -⟩ := m.index.listed hc
          exact List.mem_filter.mpr
            ⟨GoMap.mem_keys.mpr (GoMap.has_iff.mpr ⟨ds, hds⟩), decide_eq_true hlt⟩
    · rintro ⟨hd, hle⟩
      have hkeep : r ∉ m.index.byRank.keys.filter fun r => decide (r < round) := by simp [hle]
      rw [if_neg hkeep]
      exact hd
  obtain ⟨hok, hrep⟩ := h.represents.deleteCertificatesBefore round hitems hslot
  rw [← m.highestRound_drop hspares (m.byValidator.delAll
    (m.index.byRank.keys.filter fun r => decide (r < round)))] at hrep
  refine ⟨⟨?_, ?_, ?_⟩, ?_⟩
  · rw [hdelete]
    exact h.opened
  · rw [hdelete] at hrep ⊢
    exact hrep
  · intro d c hd
    obtain ⟨hd, hkeep⟩ := (hitems d c).mp hd
    exact (hslot _ _ _).mpr ⟨h.slotted hd, fun hlt => hkeep ⟨hlt, h.slotted hd⟩⟩
  · rw [hdelete, hok]

theorem getCertificate (h : SameCertificates m s) (d : Hash) :
    m.getCertificate d = s.getCertificate d := by
  rw [h.represents.getCertificate]
  exact if_neg (Bool.eq_false_iff.mp h.opened)

theorem hasCertificate (h : SameCertificates m s) (d : Hash) :
    m.hasCertificate d = s.hasCertificate d := by
  rw [h.represents.hasCertificate, MemoryCertificateStore.hasCertificate,
    if_neg (by simp [h.opened]), GoMap.has]

theorem getCertificateForValidator (h : SameCertificates m s) (r : UInt64) (a : UInt16) :
    m.getCertificateForValidator r a = s.getCertificateForValidator r a := by
  rw [h.represents.getCertificateForValidator, MemoryCertificateStore.getCertificateForValidator,
    if_neg (by simp [h.opened]), MemoryCertificateStore.slot]
  cases (m.byValidator.get r).bind fun validators => validators.get a <;> rfl

theorem getCertificatesByRound (h : SameCertificates m s) (r : UInt64) :
    (CertificateAnswer.certs (m.getCertificatesByRound r)).Same
      (.certs (s.getCertificatesByRound r)) := by
  obtain ⟨cs, hcs, -, hmem⟩ := h.represents.getCertificatesByRound r
  rw [hcs, MemoryCertificateStore.getCertificatesByRound, if_neg (by simp [h.opened])]
  intro c
  rw [RankIndex.mem_atRank, hmem]
  constructor
  · rintro ⟨hheld, hround⟩
    exact ⟨hheld, hround ▸ h.slotted hheld⟩
  · rintro ⟨hheld, hslot⟩
    obtain ⟨c', hc', hround, -⟩ := h.represents.filled hslot
    obtain rfl := Option.some.inj (hheld.symm.trans hc')
    exact ⟨hheld, hround⟩

theorem run (h : SameCertificates m s) {call : CertificateCall} (hspares : call.Spares m) :
    SameCertificates (call.run m).1 (call.run s).1 ∧
      List.Forall₂ CertificateAnswer.Same (call.run m).2 (call.run s).2 := by
  have hone : ∀ {a a' : CertificateAnswer}, a.Same a' →
      List.Forall₂ CertificateAnswer.Same [a] [a'] := fun ha => .cons ha .nil
  cases call with
  | save c =>
    obtain ⟨hnext, hanswer⟩ := h.saveCertificate hspares
    exact ⟨hnext, hone (congrArg CertificateAnswer.done hanswer)⟩
  | deleteBefore r =>
    obtain ⟨hnext, hanswer⟩ := h.deleteCertificatesBefore hspares
    exact ⟨hnext, hone (congrArg CertificateAnswer.done hanswer)⟩
  | get d => exact ⟨h, hone (congrArg CertificateAnswer.cert (h.getCertificate d))⟩
  | has d => exact ⟨h, hone (congrArg CertificateAnswer.has (h.hasCertificate d))⟩
  | byRound r => exact ⟨h, hone (h.getCertificatesByRound r)⟩
  | forValidator r a =>
    exact ⟨h, hone (congrArg CertificateAnswer.cert (h.getCertificateForValidator r a))⟩
  | highestRound =>
    exact ⟨h, hone (congrArg CertificateAnswer.round h.represents.highest.symm)⟩

end SameCertificates

/-- As long as no save takes a slot that is filled and no deletion removes the highest
round, both stores give the same answers. -/
theorem certificate_stores_equivalent (calls : List CertificateCall)
    (hspares : Run.AllOk CertificateCall.run (fun m _ call => call.Spares m)
      MemoryCertificateStore.new [] calls) :
    List.Forall₂ CertificateAnswer.Same
      (Run.exec CertificateCall.run MemoryCertificateStore.new [] calls).2
      (Run.exec CertificateCall.run LevelDBCertificateStore.new [] calls).2 := by
  have hstep : ∀ (m : MemoryCertificateStore) (s : LevelDBCertificateStore)
      (_ : List CertificateAnswer) (call : CertificateCall), SameCertificates m s →
      call.Spares m → SameCertificates (call.run m).1 (call.run s).1 ∧
        List.Forall₂ CertificateAnswer.Same (call.run m).2 (call.run s).2 :=
    fun m s _ call h hspares => h.run hspares
  exact (Run.exec_related hstep SameCertificates.start .nil hspares).2

end

section

attribute [local instance] idealCrypto idealCertificateCramberry

/-- Two authors certified in two rounds, and the lower round deleted. -/
def sparingCalls : List CertificateCall :=
  [.save (votedCertificate 1 0 [] []), .save (votedCertificate 2 1 [] []), .deleteBefore 1,
    .byRound 0, .byRound 1, .highestRound]

theorem certificate_stores_equivalent_ideal :
    Run.AllOk CertificateCall.run (fun m _ call => call.Spares m) MemoryCertificateStore.new []
      sparingCalls ∧
    List.Forall₂ CertificateAnswer.Same
      (Run.exec CertificateCall.run MemoryCertificateStore.new [] sparingCalls).2
      (Run.exec CertificateCall.run LevelDBCertificateStore.new [] sparingCalls).2 := by
  have hspares : Run.AllOk CertificateCall.run (fun m _ call => call.Spares m)
      MemoryCertificateStore.new [] sparingCalls := by decide +kernel
  exact ⟨hspares, certificate_stores_equivalent _ hspares⟩

/-- One author certified twice in round `0`, the second time with a batch. -/
def doublingCalls : List CertificateCall :=
  [.save (votedCertificate 1 0 [] []), .save (votedCertificate 1 0 [⟨1, 1, 1⟩] []), .byRound 0]

def emptyingCalls : List CertificateCall :=
  [.save (votedCertificate 1 7 [] []), .deleteBefore 8, .highestRound]

/-- The store in memory lists both certificates of the author where the one on disk lists
the second only, and forgets the highest round where the one on disk keeps it. -/
theorem certificate_stores_differ :
    ¬ List.Forall₂ CertificateAnswer.Same
      (Run.exec CertificateCall.run MemoryCertificateStore.new [] doublingCalls).2
      (Run.exec CertificateCall.run LevelDBCertificateStore.new [] doublingCalls).2 ∧
    ¬ List.Forall₂ CertificateAnswer.Same
      (Run.exec CertificateCall.run MemoryCertificateStore.new [] emptyingCalls).2
      (Run.exec CertificateCall.run LevelDBCertificateStore.new [] emptyingCalls).2 := by
  constructor
  · have hm : (Run.exec CertificateCall.run MemoryCertificateStore.new [] doublingCalls).2 =
        [.done (.ok ()), .done (.ok ()), .certs (.ok
          [votedCertificate 1 0 [] [], votedCertificate 1 0 [⟨1, 1, 1⟩] []])] := by
      decide +kernel
    have hs : (Run.exec CertificateCall.run LevelDBCertificateStore.new [] doublingCalls).2 =
        [.done (.ok ()), .done (.ok ()), .certs (.ok [votedCertificate 1 0 [⟨1, 1, 1⟩] []])] := by
      decide +kernel
    have hne : votedCertificate 1 0 [] [] ≠ votedCertificate 1 0 [⟨1, 1, 1⟩] [] := by
      decide +kernel
    rw [hm, hs]
    intro hsame
    simp only [List.forall₂_cons] at hsame
    have hlisted := (hsame.2.2.1 (votedCertificate 1 0 [] [])).mp (by simp)
    exact hne (List.mem_singleton.mp hlisted)
  · have hm : (Run.exec CertificateCall.run MemoryCertificateStore.new [] emptyingCalls).2 =
        [.done (.ok ()), .done (.ok ()), .round 0] := by
      decide +kernel
    have hs : (Run.exec CertificateCall.run LevelDBCertificateStore.new [] emptyingCalls).2 =
        [.done (.ok ()), .done (.ok ()), .round 7] := by
      decide +kernel
    rw [hm, hs]
    intro hsame
    simp only [List.forall₂_cons] at hsame
    exact absurd hsame.2.2.1 (by simp [CertificateAnswer.Same])

end

end DagMempool
