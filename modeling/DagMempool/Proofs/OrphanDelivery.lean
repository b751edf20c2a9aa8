import Mathlib.Data.Finset.Lattice.Fold
import Mathlib.Data.Fintype.EquivFin
import Mathlib.Order.Lattice.Nat
import Mathlib.Order.WellFounded
import DagMempool.Proofs.Reap

/-!
# Certificates in any order

A peer's certificate whose parents are not known waits in a buffer, and whenever a
certificate is added the buffer is gone through until a pass adds nothing. If the
certificates of a finite set that contains its own parents all arrive, in whatever
order and however often, the DAG ends up holding exactly this set.

The state between two messages is described by two facts. `Waiting`: the DAG, the
buffer and the store have nothing but certificates of the set. `Settled`: what is in
the buffer is in the DAG already, or it has a parent that is not in the DAG. The
second is about the DAG and not about the store on purpose. The primary saves a valid
orphan, so the child of a certificate that still waits may be admitted, and a
certificate may be admitted while it is in the buffer; neither breaks `Settled`.
Once all have arrived, a certificate that is not in the DAG would have a parent that
is not in the DAG either, and there is no first one.
-/

namespace DagMempool

/-! ## Sets that contain their parents

Parents need not have lower rounds, since nothing checks it; but they cannot go round in a circle,
which is what the induction is on. -/

/-- Two certificates of the set, the second of which names the first as a parent. -/
def ParentIn (S : Finset Certificate) (p c : Certificate) : Prop :=
  p ∈ S ∧ c ∈ S ∧ 0 < c.round ∧ ∃ ref ∈ c.header.parents, ref.digest = p.digest

/-- Certificates that can all be in one DAG, and that the buffer has room for. -/
structure Complete (S : Finset Certificate) : Prop where
  size : S.card ≤ orphanCertCap
  rounds : ∀ c ∈ S, c.round.toNat < 2 ^ 64 - 1
  digests : ∀ c ∈ S, ∀ c' ∈ S, c.digest = c'.digest → c = c'
  slots : ∀ c ∈ S, ∀ c' ∈ S, c.round = c'.round → c.author = c'.author → c = c'
  parents : ∀ c ∈ S, 0 < c.round → ∀ ref ∈ c.header.parents, ∃ p ∈ S, p.digest = ref.digest
  acyclic : ∀ c, ¬ Relation.TransGen (ParentIn S) c c

namespace Complete

variable {S : Finset Certificate}

theorem not_transGen_of_rounds (h : ∀ p c, ParentIn S p c → p.round.toNat < c.round.toNat)
    (c : Certificate) : ¬ Relation.TransGen (ParentIn S) c c := by
  have hlt : ∀ a b, Relation.TransGen (ParentIn S) a b → a.round.toNat < b.round.toNat := by
    intro a b hab
    induction hab with
    | single hab => exact h _ _ hab
    | tail _ hbc ih => exact Nat.lt_trans ih (h _ _ hbc)
  exact fun hc => Nat.lt_irrefl _ (hlt c c hc)

theorem induction (h : Complete S) {P : Certificate → Prop}
    (hstep : ∀ c ∈ S, (∀ p, ParentIn S p c → P p) → P c) : ∀ c ∈ S, P c := by
  let r : { c // c ∈ S } → { c // c ∈ S } → Prop :=
    fun a b => Relation.TransGen (ParentIn S) a.1 b.1
  have hirrefl : Std.Irrefl r := ⟨fun a => h.acyclic a.1⟩
  have hwf : WellFounded r := Finite.wellFounded_of_trans_of_irrefl r
  have hall : ∀ c : { c // c ∈ S }, P c.1 := by
    intro c
    induction c using hwf.induction with
    | _ c ih => exact hstep c.1 c.2 fun p hp => ih ⟨p, hp.1⟩ (.single hp)
  exact fun c hc => hall ⟨c, hc⟩

theorem room (h : Complete S) {m : GoMap Hash Certificate}
    (hm : ∀ d c, m.get d = some c → c ∈ S ∧ c.digest = d) {c : Certificate} (hc : c ∈ S)
    (hnot : m.has c.digest = false) : m.len < orphanCertCap := by
  have hnodup : m.values.Nodup := by
    refine List.Nodup.of_map Certificate.digest ?_
    rw [GoMap.map_values_eq_keys fun d c hd => (hm d c hd).2]
    exact m.nodup_keys
  have hout : c ∉ m.values := by
    intro hmem
    obtain ⟨d, hd⟩ := GoMap.mem_values.mp hmem
    rw [(hm d c hd).2, GoMap.has, hd] at hnot
    cases hnot
  have hsub : (c :: m.values).toFinset ⊆ S := by
    intro x hx
    rcases List.mem_cons.mp (List.mem_toFinset.mp hx) with rfl | hmem
    · exact hc
    · obtain ⟨d, hd⟩ := GoMap.mem_values.mp hmem
      exact (hm d x hd).1
  have hcard := Finset.card_le_card hsub
  rw [List.toFinset_card_of_nodup (List.nodup_cons.mpr ⟨hout, hnodup⟩), List.length_cons,
    GoMap.values, List.length_map] at hcard
  exact Nat.lt_of_lt_of_le hcard h.size

end Complete

/-! ## The DAG

The slots are distinct in a complete set, so a certificate of it is refused for its parents only.
-/

namespace Dag

/-- In the round and under the author it says. -/
def Placed (d : Dag) (c : Certificate) : Prop := d.slot c.round c.author = some c

/-- It needs a parent that is not in the DAG. -/
def Blocked (d : Dag) (c : Certificate) : Prop :=
  0 < c.round ∧ ∃ ref ∈ c.header.parents, d.certIndex.has ref.digest = false

/-- The DAG has certificates of the set, all of them indexed, and the highest round is
one of theirs. -/
structure Within (S : Finset Certificate) (d : Dag) : Prop where
  shaped : d.Shaped
  mem : ∀ r a c, d.slot r a = some c → c ∈ S
  indexed : ∀ c, d.Placed c → d.certIndex.has c.digest = true
  below : ∀ c, d.Placed c → c.round ≤ d.highestRound
  reached : d.highestRound = 0 ∨ ∃ c, d.Placed c ∧ c.round = d.highestRound

variable {S : Finset Certificate} {d d' d'' : Dag}

theorem within_new (cfg : DagConfig) : (new cfg).Within S :=
  { shaped := shaped_new cfg
    mem := fun r a c hc => absurd hc (by simp)
    indexed := fun c hc => absurd hc (by simp [Placed])
    below := fun c hc => absurd hc (by simp [Placed])
    reached := .inl rfl }

variable {c : Certificate}

theorem Placed.round (h : d.Placed c) :
    ∃ rd, d.rounds.get c.round = some rd ∧ rd.certificates.get c.author = some c := by
  unfold Placed slot at h
  split at h
  · cases h
  · next rd hrd => exact ⟨rd, hrd, h⟩

theorem Same.placed (h : d.Same d') : d'.Placed c ↔ d.Placed c := by
  rw [Placed, Placed, h.slot]

theorem Same.blocked (h : d.Same d') : d'.Blocked c ↔ d.Blocked c := by
  rw [Blocked, Blocked, h.certIndex]

theorem Same.within (h : d.Same d') (hd : d.Within S) : d'.Within S := by
  refine ⟨fun r a c hc => ?_, fun r a c hc => ?_, fun c hc => ?_, fun c hc => ?_, ?_⟩
  · exact hd.shaped r a c (by rw [← h.slot]; exact hc)
  · exact hd.mem r a c (by rw [← h.slot]; exact hc)
  · rw [h.certIndex]
    exact hd.indexed c (h.placed.mp hc)
  · rw [h.highestRound]
    exact hd.below c (h.placed.mp hc)
  · rw [h.highestRound]
    rcases hd.reached with hzero | ⟨c, hc, hround⟩
    · exact .inl hzero
    · exact .inr ⟨c, h.placed.mpr hc, hround⟩

theorem placed_insertCertificate (d : Dag) (c : Certificate) :
    (d.insertCertificate c).Placed c := by
  rw [Placed, slot_insertCertificate, if_pos ⟨rfl, rfl⟩]

theorem placed_insertCertificate_cases {c c' : Certificate}
    (h : (d.insertCertificate c).Placed c') : c' = c ∨ d.Placed c' := by
  rw [Placed, slot_insertCertificate] at h
  split at h
  · exact .inl (Option.some.inj h).symm
  · exact .inr h

theorem Placed.insertCertificate {c c' : Certificate} (h : d.Placed c')
    (hfree : d.slot c.round c.author = none) : (d.insertCertificate c).Placed c' := by
  rw [Placed, slot_insertCertificate]
  split
  · next heq =>
      rw [Placed, heq.1, heq.2, hfree] at h
      cases h
  · exact h

theorem Placed.added {c c' : Certificate} (h : d.Placed c')
    (hfree : d.slot c.round c.author = none) :
    ((d.ensureRound c.round).insertCertificate c).Placed c' := by
  refine ((d.same_ensureRound c.round).placed.mpr h).insertCertificate ?_
  rw [slot_ensureRound]
  exact hfree

theorem Within.insertCertificate (h : d.Within S) (hc : c ∈ S)
    (hfree : d.slot c.round c.author = none) : (d.insertCertificate c).Within S := by
  have hhigh : (d.insertCertificate c).highestRound =
      if d.highestRound < c.round then c.round else d.highestRound := rfl
  refine ⟨fun r a c' hc' => ?_, fun r a c' hc' => ?_, fun c' hc' => ?_, fun c' hc' => ?_, ?_⟩
  · rw [slot_insertCertificate] at hc'
    split at hc'
    · next heq =>
        cases hc'
        exact ⟨heq.1.symm, heq.2.symm⟩
    · exact h.shaped r a c' hc'
  · rw [slot_insertCertificate] at hc'
    split at hc'
    · cases hc'
      exact hc
    · exact h.mem r a c' hc'
  · rw [certIndex_insertCertificate, GoMap.has_set]
    rcases placed_insertCertificate_cases hc' with rfl | hold
    · exact .inl rfl
    · exact .inr (h.indexed c' hold)
  · rw [hhigh]
    rcases placed_insertCertificate_cases hc' with rfl | hold
    · split
      · exact UInt64.le_refl _
      · next hle => exact UInt64.not_lt.mp hle
    · have hle := h.below c' hold
      split
      · next hlt => exact UInt64.le_trans hle (UInt64.le_of_lt hlt)
      · exact hle
  · rw [hhigh]
    split
    · exact .inr ⟨c, d.placed_insertCertificate c, rfl⟩
    · rcases h.reached with hzero | ⟨c', hc', hround⟩
      · exact .inl hzero
      · exact .inr ⟨c', hc'.insertCertificate hfree, hround⟩

variable {CS : Type} [CertificateStore CS] [AcceptingCertificateStore CS]

theorem Within.addCertificate_cases (h : d.Within S) (hS : Complete S) {certStore : CS}
    (haccepts : AcceptingCertificateStore.accepts certStore) (hc : c ∈ S) :
    (d.Placed c ∧ d.addCertificate certStore c =
      (.error .duplicateHeader, d.ensureRound c.round, certStore)) ∨
    (d.Blocked c ∧ d.addCertificate certStore c =
      (.error .missingParents, d.ensureRound c.round, certStore)) ∨
    (d.Admits certStore c ∧ d.addCertificate certStore c =
      (.ok (), (d.ensureRound c.round).insertCertificate c,
        (CertificateStore.saveCertificate certStore c).2)) := by
  rcases d.addCertificate_cases certStore c with ⟨err, heq, hcases⟩ | ⟨hadm, heq⟩
  · rcases hcases with ⟨rfl, htaken⟩ | ⟨rfl, -, hpos, ref, href, hno⟩
    · obtain ⟨c', hc'⟩ := Option.ne_none_iff_exists'.mp htaken
      obtain ⟨hround, hauthor⟩ := h.shaped _ _ _ hc'
      have hsame := hS.slots c' (h.mem _ _ _ hc') c hc hround hauthor
      refine .inl ⟨?_, heq⟩
      rw [Placed, hc', hsame]
    · rw [hasCertificate, Bool.or_eq_false_iff] at hno
      exact .inr (.inl ⟨⟨hpos, ref, href, hno.1⟩, heq⟩)
  · rw [AcceptingCertificateStore.save_ok c haccepts] at heq
    exact .inr (.inr ⟨hadm, heq⟩)

end Dag

namespace Looseberry

variable [Crypto] {BS CS TI : Type} [CertificateStore CS] [AcceptingCertificateStore CS]
  {S : Finset Certificate}

/-- Nothing but certificates of the set, and a store that takes more of them. -/
structure Waiting (S : Finset Certificate) (l : Looseberry BS CS TI) : Prop where
  dag : l.dag.Within S
  buffered : ∀ d c, l.orphanCerts.get d = some c → c ∈ S ∧ c.digest = d
  accepts : AcceptingCertificateStore.accepts l.certStore
  stored : ∀ d c, CertificateStore.getCertificate l.certStore d = .ok c → c ∈ S

/-- In the DAG, or in the buffer. -/
def Arrived (l : Looseberry BS CS TI) (c : Certificate) : Prop :=
  l.dag.Placed c ∨ l.orphanCerts.get c.digest = some c

/-- What is in the buffer need not be tried. -/
def Settled (l : Looseberry BS CS TI) : Prop :=
  ∀ d c, l.orphanCerts.get d = some c → l.dag.Placed c ∨ l.dag.Blocked c

variable {l : Looseberry BS CS TI} {c : Certificate}

theorem Waiting.ensureRound (h : l.Waiting S) (round : UInt64) :
    { l with dag := l.dag.ensureRound round }.Waiting S :=
  ⟨(l.dag.same_ensureRound round).within h.dag, h.buffered, h.accepts, h.stored⟩

theorem Waiting.save [LawfulCertificateStore CS] (h : l.Waiting S) (hc : c ∈ S) :
    { l with certStore := (CertificateStore.saveCertificate l.certStore c).2 }.Waiting S := by
  refine ⟨h.dag, h.buffered, AcceptingCertificateStore.accepts_save c h.accepts, ?_⟩
  intro d c' hc'
  rcases LawfulCertificateStore.getCertificate_save hc' with hold | rfl
  · exact h.stored d c' hold
  · exact hc

theorem Waiting.insert [LawfulCertificateStore CS] (h : l.Waiting S) (hc : c ∈ S)
    (hfree : l.dag.slot c.round c.author = none) :
    { l with
      dag := (l.dag.ensureRound c.round).insertCertificate c
      certStore := (CertificateStore.saveCertificate l.certStore c).2 }.Waiting S := by
  have hensured := ((h.ensureRound c.round).save hc)
  refine ⟨hensured.dag.insertCertificate hc ?_, hensured.buffered, hensured.accepts,
    hensured.stored⟩
  rw [Dag.slot_ensureRound]
  exact hfree

omit [AcceptingCertificateStore CS] in
theorem Arrived.buffered (h : l.Arrived c) (hadm : l.dag.Admits l.certStore c) :
    l.orphanCerts.get c.digest = some c := by
  refine h.resolve_left fun hplaced => ?_
  rw [Dag.Placed, hadm.free] at hplaced
  cases hplaced

/-- A turn. The certificate is in the buffer unless it is in the DAG, so adding it
takes it out of there. -/
theorem replayOne_waiting [LawfulCertificateStore CS] (hS : Complete S)
    {acc : Looseberry BS CS TI × Nat} (h : acc.1.Waiting S) (hc : c ∈ S) :
    (replayOne acc c).1.Waiting S ∧ ∀ c', acc.1.Arrived c' → (replayOne acc c).1.Arrived c' := by
  rcases replayOne_cases h.accepts c with ⟨-, heq⟩ | ⟨hadm, heq⟩
  · rw [heq]
    refine ⟨h.ensureRound c.round, fun c' hc' => hc'.imp_left ?_⟩
    exact (acc.1.dag.same_ensureRound c.round).placed.mpr
  · rw [heq]
    have hinsert := h.insert hc hadm.free
    refine ⟨⟨hinsert.dag, fun d c' hd => ?_, hinsert.accepts, hinsert.stored⟩, fun c' hc' => ?_⟩
    · exact h.buffered d c' (GoMap.get_del_eq_some.mp hd).2
    · rcases hc' with hplaced | hwaits
      · exact .inl (hplaced.added hadm.free)
      · by_cases hd : c'.digest = c.digest
        · have hsame := hS.digests c' (h.buffered _ _ hwaits).1 c hc hd
          rw [hsame]
          exact .inl (Dag.placed_insertCertificate _ c)
        · exact .inr (GoMap.get_del_eq_some.mpr ⟨hd, hwaits⟩)

/-- What a replay leaves was refused, which is the reason for `Settled`. -/
theorem replayOrphanCerts_settled [LawfulCertificateStore CS] (hS : Complete S)
    (order : Nat → IterOrder Certificate) (fuel : Nat) (h : l.Waiting S)
    (hfuel : l.orphanCerts.len < fuel) :
    (replayOrphanCerts order fuel l).Waiting S ∧ (replayOrphanCerts order fuel l).Settled ∧
      ∀ c, l.Arrived c → (replayOrphanCerts order fuel l).Arrived c := by
  let I := fun m : Looseberry BS CS TI => m.Waiting S ∧ ∀ c, l.Arrived c → m.Arrived c
  let Q := fun (m : Looseberry BS CS TI) c => c ∈ S ∧ m.Arrived c
  have hrule : ReplayRule I Q := by
    refine ⟨fun acc c hI hQ => ?_, fun acc c c' hI hQ hQ' => ?_, fun m c hI hc => ?_⟩
    · obtain ⟨hwaiting, harrived⟩ := replayOne_waiting hS hI.1 hQ.1
      exact ⟨hwaiting, fun c' hc' => harrived c' (hI.2 c' hc')⟩
    · exact ⟨hQ'.1, (replayOne_waiting hS hI.1 hQ.1).2 c' hQ'.2⟩
    · obtain ⟨d, hd⟩ := GoMap.mem_values.mp hc
      obtain ⟨hmem, rfl⟩ := hI.1.buffered d c hd
      exact ⟨hmem, .inr hd⟩
  have hl : I l := ⟨h, fun _ hc => hc⟩
  obtain ⟨hwaiting, harrived⟩ := hrule.keeps order fuel hl
  refine ⟨hwaiting, fun d c hd => ?_, harrived⟩
  have hrefused := hrule.exhausts (fun _ hI => hI.1.accepts)
    (fun _ _ _ hQ hadm => hQ.2.buffered hadm) order hl hfuel (GoMap.mem_values.mpr ⟨d, hd⟩)
  rcases hwaiting.dag.addCertificate_cases hS hwaiting.accepts (hwaiting.buffered d c hd).1 with
    ⟨hplaced, -⟩ | ⟨hblocked, -⟩ | ⟨hadm, -⟩
  · exact .inl hplaced
  · exact .inr hblocked
  · exact absurd hadm hrefused

theorem bufferOrphanCert_waiting (hS : Complete S) (h : l.Waiting S) (hsettled : l.Settled)
    (hc : c ∈ S) (hblocked : l.dag.Blocked c) :
    (l.bufferOrphanCert c).Waiting S ∧ (l.bufferOrphanCert c).Settled ∧
      (l.bufferOrphanCert c).Arrived c ∧
      ∀ c', l.Arrived c' → (l.bufferOrphanCert c).Arrived c' := by
  cases hhas : l.orphanCerts.has c.digest with
  | true =>
    obtain ⟨c', hc'⟩ := GoMap.has_iff.mp hhas
    have hsame := hS.digests c' (h.buffered _ _ hc').1 c hc (h.buffered _ _ hc').2
    have hkept : l.bufferOrphanCert c = l := by
      rw [bufferOrphanCert, hhas, if_pos rfl, ite_self]
    rw [hkept]
    rw [hsame] at hc'
    exact ⟨h, hsettled, .inr hc', fun _ harrived => harrived⟩
  | false =>
    have hroom := hS.room h.buffered hc hhas
    have hkept : l.bufferOrphanCert c =
        { l with orphanCerts := l.orphanCerts.set c.digest c } := by
      rw [bufferOrphanCert, hhas, if_neg (Nat.not_le.mpr hroom), if_neg (by simp)]
    rw [hkept]
    refine ⟨⟨h.dag, fun d c' hd => ?_, h.accepts, h.stored⟩, fun d c' hd => ?_, .inr ?_,
      fun c' hc' => ?_⟩
    · rcases GoMap.get_set_eq_some hd with ⟨rfl, rfl⟩ | ⟨-, hold⟩
      · exact ⟨hc, rfl⟩
      · exact h.buffered d c' hold
    · rcases GoMap.get_set_eq_some hd with ⟨-, rfl⟩ | ⟨-, hold⟩
      · exact .inr hblocked
      · exact hsettled d c' hold
    · exact GoMap.get_set_self _ _ _
    · refine hc'.imp_right fun hwaits => ?_
      have hne : c'.digest ≠ c.digest := by
        intro heq
        rw [heq] at hwaits
        rw [GoMap.has, hwaits] at hhas
        cases hhas
      rw [GoMap.get_set_ne hne]
      exact hwaits

/-- What the primary does with a certificate changes nothing here but the store. -/
theorem handleCertificate_waiting [LawfulCertificateStore CS] (h : l.Waiting S)
    (hc : c ∈ S) :
    { l with
      primary := (l.primary.handleCertificate l.certStore c).2.1
      certStore := (l.primary.handleCertificate l.certStore c).2.2 }.Waiting S := by
  rcases (l.primary.handleCertificate_eq l.certStore c).2 with hstore | hstore
  · rw [hstore]
    exact ⟨h.dag, h.buffered, h.accepts, h.stored⟩
  · rw [hstore]
    have hsaved := h.save hc
    exact ⟨hsaved.dag, hsaved.buffered, hsaved.accepts, hsaved.stored⟩

/-- The node between two messages, with these certificates arrived. -/
structure Received (S : Finset Certificate) (certs : List Certificate)
    (l : Looseberry BS CS TI) : Prop where
  waiting : l.Waiting S
  settled : l.Settled
  arrived : ∀ c ∈ certs, l.Arrived c

variable {certs : List Certificate}

theorem handleCertificateMessage_received [LawfulCertificateStore CS] (hS : Complete S)
    (h : l.Received S certs) (hc : c ∈ S) (env : Env) :
    (l.handleCertificateMessage env c).Received S (c :: certs) := by
  have hhandled := handleCertificate_waiting h.waiting hc
  suffices hsettle : ((l.admitCertificate c).2.settleOrphans env c
      (l.admitCertificate c).1).Received S (c :: certs) from
    ⟨⟨hsettle.waiting.dag, hsettle.waiting.buffered, hsettle.waiting.accepts,
      hsettle.waiting.stored⟩, hsettle.settled, hsettle.arrived⟩
  unfold admitCertificate
  rcases hhandled.dag.addCertificate_cases hS hhandled.accepts hc with
    ⟨hplaced, heq⟩ | ⟨hblocked, heq⟩ | ⟨hadm, heq⟩
  · have hsame := l.dag.same_ensureRound c.round
    have hwaiting := hhandled.ensureRound c.round
    dsimp only at heq hwaiting ⊢
    rw [heq]
    refine ⟨hwaiting, fun d c' hd => ?_, fun c' hc' => ?_⟩
    · exact (h.settled d c' hd).imp hsame.placed.mpr hsame.blocked.mpr
    · rcases List.mem_cons.mp hc' with rfl | hmem
      · exact .inl (hsame.placed.mpr hplaced)
      · exact (h.arrived c' hmem).imp_left hsame.placed.mpr
  · have hsame := l.dag.same_ensureRound c.round
    have hwaiting := hhandled.ensureRound c.round
    dsimp only at heq hwaiting ⊢
    rw [heq]
    obtain ⟨hwaiting, hsettled, hself, harrived⟩ := bufferOrphanCert_waiting hS hwaiting
      (fun d c' hd => (h.settled d c' hd).imp hsame.placed.mpr hsame.blocked.mpr) hc
      (hsame.blocked.mpr hblocked)
    refine ⟨hwaiting, hsettled, fun c' hc' => ?_⟩
    rcases List.mem_cons.mp hc' with rfl | hmem
    · exact hself
    · exact harrived c' ((h.arrived c' hmem).imp_left hsame.placed.mpr)
  · have hwaiting := hhandled.insert hc hadm.free
    dsimp only at heq hwaiting ⊢
    rw [heq]
    obtain ⟨hwaiting, hsettled, harrived⟩ := replayOrphanCerts_settled hS env.orphans
      (l.orphanCerts.len + 1) hwaiting (Nat.lt_succ_self _)
    refine ⟨hwaiting, hsettled, fun c' hc' => harrived c' ?_⟩
    rcases List.mem_cons.mp hc' with rfl | hmem
    · exact .inl (Dag.placed_insertCertificate _ _)
    · exact (h.arrived c' hmem).imp_left fun hplaced => hplaced.added hadm.free

/-! ## A sequence of messages

Whatever arrives is in the DAG or in the buffer from then on. -/

/-- Certificates that arrive one after another, each at its own moment. -/
def deliver (l : Looseberry BS CS TI) (messages : List (Certificate × Env)) :
    Looseberry BS CS TI :=
  messages.foldl (fun l m => l.handleCertificateMessage m.2 m.1) l

theorem deliver_received [LawfulCertificateStore CS] (hS : Complete S)
    {messages : List (Certificate × Env)} (hmessages : ∀ m ∈ messages, m.1 ∈ S)
    (h : l.Received S certs) : (l.deliver messages).Received S (messages.map (·.1) ++ certs) := by
  induction messages generalizing l certs with
  | nil => exact h
  | cons m messages ih =>
    have hone := handleCertificateMessage_received hS h
      (hmessages m List.mem_cons_self) m.2
    have hrest := ih (fun m' hm' => hmessages m' (List.mem_cons_of_mem _ hm')) hone
    refine ⟨hrest.waiting, hrest.settled, fun c hc => hrest.arrived c ?_⟩
    simp only [List.map_cons, List.cons_append, List.mem_cons, List.mem_append] at hc ⊢
    tauto

/-- When all have arrived none is left out: by induction from the parents to the
children, since a certificate that waits has a parent that is not in the DAG. -/
theorem Received.placed (hS : Complete S) (h : l.Received S certs) (hall : ∀ c ∈ S, c ∈ certs) :
    ∀ c ∈ S, l.dag.Placed c := by
  refine hS.induction fun c hc hparents => ?_
  rcases h.arrived c (hall c hc) with hplaced | hwaits
  · exact hplaced
  · rcases h.settled _ _ hwaits with hplaced | ⟨hpos, ref, href, hno⟩
    · exact hplaced
    · obtain ⟨p, hp, hdigest⟩ := hS.parents c hc hpos ref href
      have hplaced := hparents p ⟨hp, hc, hpos, ref, href, hdigest.symm⟩
      have hindexed := h.waiting.dag.indexed p hplaced
      rw [hdigest, hno] at hindexed
      cases hindexed

end Looseberry

namespace Dag

variable {S : Finset Certificate} {d : Dag}

theorem Within.slot_iff (h : d.Within S) (hall : ∀ c ∈ S, d.Placed c) (r : UInt64)
    (a : UInt16) (c : Certificate) :
    d.slot r a = some c ↔ c ∈ S ∧ c.round = r ∧ c.author = a := by
  constructor
  · exact fun hslot => ⟨h.mem r a c hslot, h.shaped r a c hslot⟩
  · rintro ⟨hc, rfl, rfl⟩
    exact hall c hc

theorem Within.highestRound_eq (h : d.Within S) (hall : ∀ c ∈ S, d.Placed c) :
    d.highestRound.toNat = S.sup fun c => c.round.toNat := by
  refine Nat.le_antisymm ?_ (Finset.sup_le fun c hc => ?_)
  · rcases h.reached with hzero | ⟨c, hc, hround⟩
    · rw [hzero]
      exact Nat.zero_le _
    · rw [← hround]
      exact Finset.le_sup (f := fun c : Certificate => c.round.toNat) (h.mem _ _ c hc)
  · exact UInt64.le_iff_toNat_le.mp (h.below c (hall c hc))

theorem Within.mem_getCertificatesForRound {CS : Type} [CertificateStore CS]
    [LawfulCertificateRounds CS] (h : d.Within S) (hall : ∀ c ∈ S, d.Placed c)
    {certStore : CS}
    (hstored : ∀ digest c, CertificateStore.getCertificate certStore digest = .ok c → c ∈ S)
    (order : IterOrder Certificate) {r : UInt64} {c : Certificate} :
    c ∈ d.getCertificatesForRound certStore order r ↔ c ∈ S ∧ c.round = r := by
  constructor
  · intro hc
    rcases mem_getCertificatesForRound_cases hc with ⟨a, hslot⟩ | ⟨hget, hround⟩
    · exact ⟨h.mem r a c hslot, (h.shaped r a c hslot).1⟩
    · exact ⟨hstored _ c hget, hround⟩
  · rintro ⟨hc, rfl⟩
    obtain ⟨rd, hrd, hget⟩ := (hall c hc).round
    rw [getCertificatesForRound, hrd]
    exact order.mem_arrange.mpr (GoMap.mem_values.mpr ⟨_, hget⟩)

theorem Within.listsRound {CS : Type} [CertificateStore CS]
    [LawfulCertificateRounds CS] (h : d.Within S) (hall : ∀ c ∈ S, d.Placed c)
    {certStore : CS}
    (hstored : ∀ digest c, CertificateStore.getCertificate certStore digest = .ok c → c ∈ S)
    (order : IterOrder Certificate) (r : UInt64) : d.ListsRound certStore order r := by
  cases hr : d.rounds.has r with
  | true => exact h.shaped.listsRound certStore order hr
  | false =>
    have hnone : d.getCertificatesForRound certStore order r = [] := by
      refine List.eq_nil_iff_forall_not_mem.mpr fun c hc => ?_
      obtain ⟨hmem, rfl⟩ := (h.mem_getCertificatesForRound hall hstored order).mp hc
      obtain ⟨rd, hrd, -⟩ := (hall c hmem).round
      rw [GoMap.has, hrd] at hr
      cases hr
    exact ⟨by simp [hnone], by simp [hnone]⟩

end Dag

namespace Looseberry

variable [Crypto] [SliceSort] {BS CS TI : Type} [CertificateStore CS]
  [AcceptingCertificateStore CS] [LawfulCertificateStore CS] [LawfulCertificateRounds CS]

/-- A node that starts with an empty store which takes what it is given, and is sent all
certificates of a complete set in any order, each at least once, holds exactly
these. -/
theorem deliver_in_any_order {S : Finset Certificate} (hS : Complete S)
    {l : Looseberry BS CS TI} (hstarted : l.Started)
    (haccepts : AcceptingCertificateStore.accepts l.certStore)
    (hempty : ∀ d c, CertificateStore.getCertificate l.certStore d ≠ .ok c)
    {messages : List (Certificate × Env)} (hall : ∀ c, c ∈ messages.map (·.1) ↔ c ∈ S) :
    (∀ r a c, (l.deliver messages).dag.slot r a = some c ↔
      c ∈ S ∧ c.round = r ∧ c.author = a) ∧
    ((l.deliver messages).dag.highestRound.toNat = S.sup fun c => c.round.toNat) ∧
    ∀ order, (l.deliver messages).dag.getOrderedCertificates (l.deliver messages).certStore
      order 0 (l.deliver messages).dag.highestRound = some (Certificate.inOrder S.toList) := by
  have hinit : l.Received S [] := by
    obtain ⟨cfg, vs, batchStore, certStore, txIndex, now, rfl⟩ := hstarted
    refine ⟨⟨Dag.within_new _, fun d c hd => ?_, haccepts, fun d c hd => ?_⟩,
      fun d c hd => ?_, fun c hc => absurd hc (by simp)⟩
    · exact absurd hd (by simp [start])
    · exact absurd hd (hempty d c)
    · exact absurd hd (by simp [start])
  have hmessages : ∀ m ∈ messages, m.1 ∈ S :=
    fun m hm => (hall m.1).mp (List.mem_map_of_mem hm)
  have hreceived := deliver_received hS hmessages hinit
  have hplaced := hreceived.placed hS fun c hc => List.mem_append_left _ ((hall c).mpr hc)
  have hdag := hreceived.waiting.dag
  have hhighest := hdag.highestRound_eq hplaced
  refine ⟨hdag.slot_iff hplaced, hhighest, fun order => ?_⟩
  have hlast : (l.deliver messages).dag.highestRound.toNat < 2 ^ 64 - 1 := by
    rw [hhighest, Finset.sup_lt_iff (by decide)]
    exact hS.rounds
  have hrounds : ∀ r, 0 ≤ r → r ≤ (l.deliver messages).dag.highestRound →
      (l.deliver messages).dag.ListsRound (l.deliver messages).certStore order r :=
    fun r _ _ => hdag.listsRound hplaced hreceived.waiting.stored order r
  obtain ⟨certs, heq, hsorted, hcerts⟩ := Dag.getOrderedCertificates_spec hlast hrounds
  rw [heq]
  refine congrArg some (Certificate.eq_of_pairwise_before hsorted ?_ fun c => ?_)
  · refine Certificate.pairwise_inOrder (S.nodup_toList.imp_of_mem ?_)
    intro a b ha hb hne hsame
    exact hne (hS.slots a (Finset.mem_toList.mp ha) b (Finset.mem_toList.mp hb)
      hsame.1 hsame.2)
  · rw [hcerts, Certificate.mem_inOrder, Finset.mem_toList,
      hdag.mem_getCertificatesForRound hplaced hreceived.waiting.stored order]
    constructor
    · exact fun h => h.2.1
    · exact fun hc => ⟨⟨UInt64.zero_le, hdag.below c (hplaced c hc)⟩, hc, rfl⟩

end Looseberry

section

open IdealScheme

def childCertificate : Certificate :=
  votedCertificate 1 1 [] [votedCertificate 1 0 [] [], votedCertificate 2 0 [] []]

/-- Two certificates of the first round and one of the second that refers to both. -/
def smallFamily : Finset Certificate :=
  {votedCertificate 1 0 [] [], votedCertificate 2 0 [] [], childCertificate}

/-- The child comes before its parents, and again between them. -/
def childFirst : List (Certificate × Env) :=
  [(childCertificate, idealEnv 1), (votedCertificate 2 0 [] [], idealEnv 2),
    (childCertificate, idealEnv 3), (votedCertificate 1 0 [] [], idealEnv 4)]

theorem complete_smallFamily : Complete smallFamily := by
  refine ⟨by decide +kernel, by decide +kernel, by decide +kernel, by decide +kernel,
    by decide +kernel, Complete.not_transGen_of_rounds ?_⟩
  have hlower : ∀ p ∈ smallFamily, ∀ c ∈ smallFamily,
      (∃ ref ∈ c.header.parents, ref.digest = p.digest) →
        p.round.toNat < c.round.toNat := by decide +kernel
  exact fun p c hpc => hlower p hpc.1 c hpc.2.1 hpc.2.2.2

theorem deliver_in_any_order_child_first :
    ((idealNode 0 10).deliver childFirst).dag.slot 1 1 = some childCertificate ∧
      ((idealNode 0 10).deliver childFirst).dag.getOrderedCertificates
        ((idealNode 0 10).deliver childFirst).certStore .listed 0
          ((idealNode 0 10).deliver childFirst).dag.highestRound =
        some (Certificate.inOrder smallFamily.toList) := by
  have hall : ∀ c, c ∈ childFirst.map (·.1) ↔ c ∈ smallFamily := by
    intro c
    simp only [childFirst, smallFamily, List.map_cons, List.map_nil, List.mem_cons,
      List.not_mem_nil, Finset.mem_insert, Finset.mem_singleton, or_false]
    tauto
  have hempty : ∀ d c,
      CertificateStore.getCertificate (idealNode 0 10).certStore d ≠ .ok c := by
    intro d c
    show MemoryCertificateStore.new.getCertificate d ≠ .ok c
    simp [MemoryCertificateStore.getCertificate, MemoryCertificateStore.new, RankIndex.empty]
  obtain ⟨hslots, -, hordered⟩ := Looseberry.deliver_in_any_order complete_smallFamily
    (started_idealNode 0 10) rfl hempty hall
  exact ⟨(hslots _ _ _).mpr (by decide +kernel), hordered .listed⟩

end

end DagMempool
