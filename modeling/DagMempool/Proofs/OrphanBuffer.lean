import DagMempool.Node.Ideal
import DagMempool.Proofs.CertificateWrites

/-!
# What is in the buffer of orphans

A certificate waits among the orphans for parents that are neither in the DAG nor in
the certificate store, and its slot in the DAG is free until then. Both can end without
the buffer noticing. The buffer is gone through only when a peer's certificate was
added to the DAG; but a certificate is also saved when it is valid and cannot be added,
and a certificate that the node forms is added without a look at the buffer. A
certificate that waits can then be handed over once more and is added itself, with its
copy in the buffer, which is refused as a duplicate ever after.

`Undisturbed` excludes this event by event: a certificate that becomes known without a
replay is not the last one an orphan waits for, and no other certificate comes for the
slot of an orphan. Every replay then ends with orphans that all still wait, since what
it leaves was refused and a refusal for the slot is ruled out.
-/

namespace DagMempool

/-! ## Waiting

A certificate waits because of its header: the slot it has and the parents it refers to. Whatever
does not fill the one or bring the other leaves it waiting. -/

namespace Dag

variable {CS : Type} [CertificateStore CS]

/-- The slot of the certificate is free, and a parent of it is neither in the DAG nor in
the store. -/
structure Awaits (d : Dag) (certStore : CS) (c : Certificate) : Prop where
  free : d.slot c.round c.author = none
  missing : ∃ ref ∈ c.header.parents, d.hasCertificate certStore ref.digest = false

/-- A parent that the certificate waits for is not among these headers. -/
def MissesOther (d : Dag) (certStore : CS) (headers : List Header) (c : Certificate) : Prop :=
  ∃ ref ∈ c.header.parents, d.hasCertificate certStore ref.digest = false ∧
    ∀ header ∈ headers, ref.digest ≠ header.digest
deriving Decidable

/-- Certificates for these headers can be added and the certificate still waits. -/
@[mk_iff] structure Spared (d : Dag) (certStore : CS) (headers : List Header) (c : Certificate) :
    Prop where
  slot : ∀ header ∈ headers, ¬ (header.round = c.round ∧ header.author = c.author)
  parent : d.MissesOther certStore headers c

instance (d : Dag) (certStore : CS) (headers : List Header) (c : Certificate) :
    Decidable (d.Spared certStore headers c) :=
  decidable_of_iff' _ (spared_iff d certStore headers c)

variable {d d' : Dag} {certStore certStore' : CS} {c cert : Certificate}

theorem Awaits.mono (h : d.Awaits certStore c)
    (hslot : ∀ r a, d.slot r a = none → d'.slot r a = none)
    (hhas : ∀ digest, d'.hasCertificate certStore' digest = true →
      d.hasCertificate certStore digest = true) : d'.Awaits certStore' c := by
  obtain ⟨hfree, ref, href, hno⟩ := h
  refine ⟨hslot _ _ hfree, ref, href, ?_⟩
  rw [Bool.eq_false_iff] at hno ⊢
  exact fun hknown => hno (hhas _ hknown)

theorem Same.awaits (h : d.Same d') (hc : d.Awaits certStore c) : d'.Awaits certStore c :=
  hc.mono (fun r a hnone => (h.slot r a).trans hnone)
    fun digest hknown => (h.hasCertificate certStore digest).symm.trans hknown

theorem Awaits.not_admits (h : d.Awaits certStore c) (hpos : 0 < c.round) :
    ¬ d.Admits certStore c := by
  obtain ⟨-, ref, href, hno⟩ := h
  exact fun hadm => absurd (hadm.parents hpos ref href) (by simp [hno])

theorem Awaits.of_header (h : d.Awaits certStore c) (hheader : c.header = cert.header) :
    d.Awaits certStore cert := by
  obtain ⟨hfree, hmissing⟩ := h
  rw [Certificate.round, Certificate.author, hheader] at hfree
  rw [hheader] at hmissing
  exact ⟨hfree, hmissing⟩

/-- A certificate that is refused though its slot is free waits. -/
theorem awaits_of_not_admits (hfree : d.slot c.round c.author = none)
    (hnot : ¬ d.Admits certStore c) : d.Awaits certStore c := by
  refine ⟨hfree, ?_⟩
  by_contra hall
  push Not at hall
  exact hnot ⟨hfree, fun _ ref href => by simpa using hall ref href⟩

theorem MissesOther.awaits {headers : List Header} (h : d.MissesOther certStore headers c)
    (hcert : cert.header ∈ headers) (hfree : d.slot c.round c.author = none)
    (hhas : ∀ digest, d.hasCertificate certStore' digest = true →
      d.hasCertificate certStore digest = true ∨ digest = cert.digest) :
    d.Awaits certStore' c := by
  obtain ⟨ref, href, hno, hother⟩ := h
  refine ⟨hfree, ref, href, ?_⟩
  rw [Bool.eq_false_iff] at hno ⊢
  exact fun hknown => (hhas _ hknown).elim hno (hother _ hcert)

end Dag

theorem Written.awaits {CS : Type} [CertificateStore CS] [KnowsSaved CS]
    {headers : List Header} {s s' : CertState CS} {c : Certificate}
    (h : Written (fun cert => cert.header ∈ headers) s s')
    (hfree : s.dag.slot c.round c.author = none)
    (hspared : s.dag.Spared s.certStore headers c) : s'.dag.Awaits s'.certStore c := by
  obtain ⟨hslot, ref, href, hno, hother⟩ := hspared
  rw [Bool.eq_false_iff] at hno
  have hmissing : ¬ s'.dag.hasCertificate s'.certStore ref.digest = true := by
    induction h with
    | refl => exact hno
    | save _ hc ih =>
      intro hknown
      rcases Dag.hasCertificate_of_saved hknown with hold | hself
      · exact ih hold
      · exact hother _ hc hself
    | add _ hc ih =>
      intro hknown
      rcases Dag.hasCertificate_of_added hknown with hold | hself
      · exact ih hold
      · exact hother _ hc hself
    | round _ _ ih => exact ih
  refine ⟨?_, ref, href, Bool.eq_false_iff.mpr hmissing⟩
  cases hc : s'.dag.slot c.round c.author with
  | none => rfl
  | some c' =>
    rcases h.slot hc with hold | ⟨hheader, hround, hauthor⟩
    · exact absurd (hfree.symm.trans hold) (by simp)
    · exact absurd ⟨hround, hauthor⟩ (hslot _ hheader)

/-- The buffer has one certificate for a slot at most, under its digest. -/
structure OnePerSlot (orphans : GoMap Hash Certificate) : Prop where
  keyed : ∀ digest c, orphans.get digest = some c → c.digest = digest
  above : ∀ c ∈ orphans.values, 0 < c.round
  slots : ∀ c ∈ orphans.values, ∀ c' ∈ orphans.values,
    c.round = c'.round → c.author = c'.author → c = c'

section

variable {orphans : GoMap Hash Certificate} {c : Certificate}

theorem OnePerSlot.get (h : OnePerSlot orphans) (hc : c ∈ orphans.values) :
    orphans.get c.digest = some c := by
  obtain ⟨digest, hget⟩ := GoMap.mem_values.mp hc
  rw [h.keyed digest c hget]
  exact hget

theorem OnePerSlot.mem_del (h : OnePerSlot orphans) {digest : Hash} :
    c ∈ (orphans.del digest).values ↔ c ∈ orphans.values ∧ c.digest ≠ digest := by
  rw [GoMap.mem_values]
  constructor
  · rintro ⟨key, hkey⟩
    obtain ⟨hne, hget⟩ := GoMap.get_del_eq_some.mp hkey
    rw [h.keyed key c hget]
    exact ⟨GoMap.mem_values.mpr ⟨key, hget⟩, hne⟩
  · rintro ⟨hc, hne⟩
    exact ⟨c.digest, GoMap.get_del_eq_some.mpr ⟨hne, h.get hc⟩⟩

theorem OnePerSlot.del (h : OnePerSlot orphans) (digest : Hash) :
    OnePerSlot (orphans.del digest) where
  keyed key c hget := h.keyed key c (GoMap.get_del_eq_some.mp hget).2
  above c hc := h.above c (h.mem_del.mp hc).1
  slots c hc c' hc' := h.slots c (h.mem_del.mp hc).1 c' (h.mem_del.mp hc').1

theorem OnePerSlot.set (h : OnePerSlot orphans) (hpos : 0 < c.round)
    (hslot : ∀ c' ∈ orphans.values, ¬ (c'.round = c.round ∧ c'.author = c.author)) :
    OnePerSlot (orphans.set c.digest c) := by
  refine ⟨fun key c' hkey => ?_, fun c' hc' => ?_, fun c' hc' c'' hc'' hround hauthor => ?_⟩
  · rcases GoMap.get_set_eq_some hkey with ⟨rfl, rfl⟩ | ⟨-, hold⟩
    · rfl
    · exact h.keyed key c' hold
  · rcases GoMap.mem_values_of_set hc' with rfl | hold
    · exact hpos
    · exact h.above c' hold
  · rcases GoMap.mem_values_of_set hc' with rfl | hold
    · rcases GoMap.mem_values_of_set hc'' with rfl | hold'
      · rfl
      · exact absurd ⟨hround.symm, hauthor.symm⟩ (hslot c'' hold')
    · rcases GoMap.mem_values_of_set hc'' with rfl | hold'
      · exact absurd ⟨hround, hauthor⟩ (hslot c' hold)
      · exact h.slots c' hold c'' hold' hround hauthor

end

namespace Looseberry

variable [Crypto] {BS CS TI : Type} [CertificateStore CS]

/-- Every orphan still waits: none can be added, none is in the DAG, and none is kept
out by another certificate of its slot. -/
def Tidy (l : Looseberry BS CS TI) : Prop :=
  ∀ c ∈ l.orphanCerts.values, l.dag.Awaits l.certStore c

/-! ## A replay

What a replay leaves in the buffer was refused with the DAG as it then is, and it was not refused
for its slot. -/

section

variable [AcceptingCertificateStore CS]

/-- What a replay starts from, and keeps. -/
structure Replayable (l : Looseberry BS CS TI) : Prop where
  onePerSlot : OnePerSlot l.orphanCerts
  free : ∀ c ∈ l.orphanCerts.values, l.dag.slot c.round c.author = none
  accepts : AcceptingCertificateStore.accepts l.certStore

/-- What is known of a certificate whose turn comes: it is in the buffer still, or its
slot was taken. -/
def UpNext (l : Looseberry BS CS TI) (c : Certificate) : Prop :=
  c ∈ l.orphanCerts.values ∨ l.dag.slot c.round c.author ≠ none

omit [AcceptingCertificateStore CS] in
theorem UpNext.mem {l : Looseberry BS CS TI} {c : Certificate} (h : l.UpNext c)
    (hadm : l.dag.Admits l.certStore c) : c ∈ l.orphanCerts.values :=
  h.resolve_right fun htaken => htaken hadm.free

theorem replayOne_replayable (acc : Looseberry BS CS TI × Nat) (c : Certificate)
    (h : acc.1.Replayable) (hc : acc.1.UpNext c) : (replayOne acc c).1.Replayable := by
  rcases replayOne_cases h.accepts c with ⟨-, heq⟩ | ⟨hadm, heq⟩
  · rw [heq]
    refine ⟨h.onePerSlot, fun c' hc' => ?_, h.accepts⟩
    rw [Dag.slot_ensureRound]
    exact h.free c' hc'
  · rw [heq]
    refine ⟨h.onePerSlot.del c.digest, fun c' hc' => ?_,
      AcceptingCertificateStore.accepts_save c h.accepts⟩
    obtain ⟨hmem, hne⟩ := h.onePerSlot.mem_del.mp hc'
    have hslot : ¬ (c'.round = c.round ∧ c'.author = c.author) := by
      rintro ⟨hround, hauthor⟩
      exact hne (congrArg _ (h.onePerSlot.slots c' hmem c (hc.mem hadm) hround hauthor))
    rw [Dag.slot_insertCertificate, if_neg hslot, Dag.slot_ensureRound]
    exact h.free c' hmem

theorem replayOne_upNext (acc : Looseberry BS CS TI × Nat) (c c' : Certificate)
    (h : acc.1.Replayable) (hc : acc.1.UpNext c) (hc' : acc.1.UpNext c') :
    (replayOne acc c).1.UpNext c' := by
  rcases replayOne_cases h.accepts c with ⟨-, heq⟩ | ⟨hadm, heq⟩
  · rw [heq]
    refine hc'.imp_right fun htaken => ?_
    rw [Dag.slot_ensureRound]
    exact htaken
  · rw [heq]
    by_cases hslot : c'.round = c.round ∧ c'.author = c.author
    · refine .inr ?_
      rw [Dag.slot_insertCertificate, if_pos hslot]
      simp
    · rcases hc' with hmem | htaken
      · refine .inl (h.onePerSlot.mem_del.mpr ⟨hmem, fun hdigest => ?_⟩)
        have hget := h.onePerSlot.get hmem
        rw [hdigest, h.onePerSlot.get (hc.mem hadm)] at hget
        obtain rfl := Option.some.inj hget
        exact hslot ⟨rfl, rfl⟩
      · refine .inr ?_
        rw [Dag.slot_insertCertificate, if_neg hslot, Dag.slot_ensureRound]
        exact htaken

theorem replayOrphanCerts_tidy (order : Nat → IterOrder Certificate) {fuel : Nat}
    {l : Looseberry BS CS TI} (h : l.Replayable) (hfuel : l.orphanCerts.len < fuel) :
    OnePerSlot (replayOrphanCerts order fuel l).orphanCerts ∧
      (replayOrphanCerts order fuel l).Tidy := by
  have hrule : @ReplayRule _ BS CS TI _ Replayable UpNext :=
    ⟨replayOne_replayable, replayOne_upNext, fun _ _ _ hmem => .inl hmem⟩
  have hafter := hrule.keeps order fuel h
  refine ⟨hafter.onePerSlot, fun c hc => ?_⟩
  refine Dag.awaits_of_not_admits (hafter.free c hc) ?_
  exact hrule.exhausts (fun _ hl => hl.accepts)
    (fun _ c hl hnext hadm => hl.onePerSlot.get (hnext.mem hadm)) order h hfuel hc

end

/-! ## A certificate

A certificate that arrives is saved before it is added. Between the two an orphan that misses only
this one would be known to be complete and still sit in the buffer. -/

/-- What the runs keep. -/
structure Orderly (l : Looseberry BS CS TI) : Prop where
  onePerSlot : OnePerSlot l.orphanCerts
  tidy : l.Tidy

section

theorem bufferOrphanCert_orderly {l : Looseberry BS CS TI} {cert : Certificate}
    (h : l.Orderly) (hpos : 0 < cert.round) (hcert : l.dag.Awaits l.certStore cert)
    (hslots : ∀ c ∈ l.orphanCerts.values, c.round = cert.round → c.author = cert.author →
      c.header = cert.header) : (l.bufferOrphanCert cert).Orderly := by
  rcases l.bufferOrphanCert_cases cert with heq | ⟨hnew, heq⟩
  · rw [heq]
    exact h
  · rw [heq]
    refine ⟨h.onePerSlot.set hpos fun c hc hslot => ?_, fun c hc => ?_⟩
    · have hget := h.onePerSlot.get hc
      rw [Certificate.digest, hslots c hc hslot.1 hslot.2] at hget
      exact absurd (GoMap.has_iff.mpr ⟨c, hget⟩) (Bool.eq_false_iff.mp hnew)
    · rcases GoMap.mem_values_of_set hc with rfl | hold
      · exact hcert
      · exact h.tidy c hold

variable [AcceptingCertificateStore CS]

/-- A certificate may be delivered: the store takes it, no orphan has the slot with
another header, and unless it is added or is not valid every orphan waits for something
else. -/
structure Fits (l : Looseberry BS CS TI) (cert : Certificate) : Prop where
  accepts : AcceptingCertificateStore.accepts l.certStore
  slots : ∀ c ∈ l.orphanCerts.values, c.round = cert.round → c.author = cert.author →
    c.header = cert.header
  parents : l.dag.Admits l.certStore cert ∨
    cert.verify l.primary.validatorSet ≠ .ok () ∨
    ∀ c ∈ l.orphanCerts.values, l.dag.MissesOther l.certStore [cert.header] c

/-- Each certificate of a response may be delivered when its turn comes. -/
def FitsInTurn (env : Env) : Looseberry BS CS TI → List Certificate → Prop
  | _, [] => True
  | l, cert :: certs =>
    l.Fits cert ∧ FitsInTurn env (l.handleCertificateMessage env cert) certs

/-- The store as the primary leaves it: a valid certificate is saved. -/
def Handled (l : Looseberry BS CS TI) (cert : Certificate) (certStore : CS) : Prop :=
  certStore = l.certStore ∨
    cert.verify l.primary.validatorSet = .ok () ∧
      certStore = (CertificateStore.saveCertificate l.certStore cert).2

omit [AcceptingCertificateStore CS] in
theorem admitCertificate_eq (l : Looseberry BS CS TI) (cert : Certificate) :
    ∃ primary certStore, l.Handled cert certStore ∧
      l.admitCertificate cert =
        ((l.dag.addCertificate certStore cert).1,
          { l with
            primary
            dag := (l.dag.addCertificate certStore cert).2.1
            certStore := (l.dag.addCertificate certStore cert).2.2 }) := by
  refine ⟨_, _, ?_, rfl⟩
  by_cases hvalid : cert.verify l.primary.validatorSet = .ok ()
  · exact (l.primary.handleCertificate_eq l.certStore cert).2.imp_right fun h => ⟨hvalid, h⟩
  · exact .inl (congrArg (·.2) (l.primary.handleCertificate_of_invalid l.certStore hvalid))

namespace Handled

variable {l : Looseberry BS CS TI} {cert : Certificate} {certStore : CS}

theorem accepts (h : l.Handled cert certStore)
    (haccepts : AcceptingCertificateStore.accepts l.certStore) :
    AcceptingCertificateStore.accepts certStore := by
  rcases h with rfl | ⟨-, rfl⟩
  · exact haccepts
  · exact AcceptingCertificateStore.accepts_save cert haccepts

omit [AcceptingCertificateStore CS] in
theorem admits [KeepsCertificates CS] (h : l.Handled cert certStore)
    (hadm : l.dag.Admits l.certStore cert) : l.dag.Admits certStore cert := by
  rcases h with rfl | ⟨-, rfl⟩
  · exact hadm
  · exact hadm.saved cert

/-- Unless the certificate is added, the orphans still wait with the store written. -/
theorem awaits [KnowsSaved CS] (h : l.Handled cert certStore) (hl : l.Orderly)
    (hfits : l.Fits cert) :
    l.dag.Admits l.certStore cert ∨
      ∀ c ∈ l.orphanCerts.values, l.dag.Awaits certStore c := by
  rcases hfits.parents with hadm | hinvalid | hother
  · exact .inl hadm
  · rcases h with rfl | ⟨hvalid, -⟩
    · exact .inr hl.tidy
    · exact absurd hvalid hinvalid
  · refine .inr fun c hc => ?_
    refine (hother c hc).awaits (List.mem_singleton.mpr rfl) (hl.tidy c hc).free ?_
    rcases h with rfl | ⟨-, rfl⟩
    · exact fun _ hknown => .inl hknown
    · exact fun _ hknown => Dag.hasCertificate_of_saved hknown

/-- A certificate that is added has a slot of its own: an orphan of the same slot has the
same header, and that one waits. -/
theorem slot_ne [KnowsSaved CS] (h : l.Handled cert certStore) (hl : l.Orderly)
    (hfits : l.Fits cert) (hadm : l.dag.Admits certStore cert) {c : Certificate}
    (hc : c ∈ l.orphanCerts.values) : ¬ (c.round = cert.round ∧ c.author = cert.author) := by
  rintro ⟨hround, hauthor⟩
  have hheader := hfits.slots c hc hround hauthor
  have hpos : 0 < cert.round := by
    rw [← hround]
    exact hl.onePerSlot.above c hc
  rcases h.awaits hl hfits with hbefore | hwait
  · exact ((hl.tidy c hc).of_header hheader).not_admits hpos hbefore
  · exact ((hwait c hc).of_header hheader).not_admits hpos hadm

end Handled

variable [KeepsCertificates CS] [KnowsSaved CS]

theorem handleCertificateMessage_orderly {l : Looseberry BS CS TI} {cert : Certificate}
    (h : l.Orderly) (hfits : l.Fits cert) (env : Env) :
    (l.handleCertificateMessage env cert).Orderly := by
  obtain ⟨primary, certStore, hhandled, heq⟩ := l.admitCertificate_eq cert
  suffices hsettled : ((l.admitCertificate cert).2.settleOrphans env cert
      (l.admitCertificate cert).1).Orderly from ⟨hsettled.onePerSlot, hsettled.tidy⟩
  rw [heq]
  rcases l.dag.addCertificate_cases certStore cert with ⟨err, hadd, hwhy⟩ | ⟨hadm, hadd⟩
  · -- Refused: the orphans wait as before, and the certificate may join them.
    have hsame := l.dag.same_ensureRound cert.round
    have hwait := (hhandled.awaits h hfits).resolve_left fun hadm =>
      (hhandled.admits hadm).not_refused hwhy
    have horderly : Orderly
        { l with primary, dag := l.dag.ensureRound cert.round, certStore } :=
      ⟨h.onePerSlot, fun c hc => hsame.awaits (hwait c hc)⟩
    rw [hadd]
    rcases hwhy with ⟨rfl, -⟩ | ⟨rfl, hfree, hpos, hmissing⟩
    · exact horderly
    · exact bufferOrphanCert_orderly horderly hpos (hsame.awaits ⟨hfree, hmissing⟩) hfits.slots
  · -- Added: the slots of the orphans are free still, and a replay follows.
    have haccepts := hhandled.accepts hfits.accepts
    have hreplayable : Replayable
        { l with
          primary
          dag := (l.dag.ensureRound cert.round).insertCertificate cert
          certStore := (CertificateStore.saveCertificate certStore cert).2 } := by
      refine ⟨h.onePerSlot, fun c hc => ?_, AcceptingCertificateStore.accepts_save cert haccepts⟩
      rw [Dag.slot_insertCertificate, if_neg (hhandled.slot_ne h hfits hadm hc),
        Dag.slot_ensureRound]
      exact (h.tidy c hc).free
    rw [hadd, AcceptingCertificateStore.save_ok cert haccepts]
    obtain ⟨hslots, htidy⟩ :=
      replayOrphanCerts_tidy env.orphans hreplayable (Nat.lt_succ_self _)
    exact ⟨hslots, htidy⟩

theorem foldl_handleCertificateMessage_orderly {l : Looseberry BS CS TI} (env : Env)
    {certs : List Certificate} (h : l.Orderly) (hcerts : FitsInTurn env l certs) :
    (certs.foldl (fun l cert => l.handleCertificateMessage env cert) l).Orderly := by
  induction certs generalizing l with
  | nil => exact h
  | cons cert certs ih =>
    exact ih (handleCertificateMessage_orderly h hcerts.1 env) hcerts.2

end

end Looseberry

/-! ## Certificates the node forms

These are added without a replay, so that an orphan must not wait for them. -/

def Primary.headerFor [Crypto] (p : Primary) (digest : Hash) : Option Header :=
  (p.voteTracker.pending.get digest).map (·.header)

/-- The headers of the node's own that a tick of the header loop can complete the
certificate of: those that are tracked, and the one that is made. -/
def Primary.headersAt [Crypto] [SliceSort] {CS : Type} [CertificateStore CS] (p : Primary)
    (certStore : CS) (hasAckQuorum : Hash → Bool) (now : Int) : List Header :=
  p.voteTracker.pending.values.map (·.header) ++
    (p.nextHeader certStore hasAckQuorum now).toList

namespace Looseberry

variable [Crypto] {BS CS TI : Type} [CertificateStore CS]

/-- A vote can complete the certificate of the header it is for. -/
theorem handleVote_written [SliceSort] (p : Primary) (certStore : CS) (k : Formed)
    (vote : Vote) (order : IterOrder Vote) (now : Int) :
    Written (fun c => c.header ∈ (p.headerFor vote.headerDigest).toList)
      (k.certState certStore)
      ((p.handleVote certStore onCertificateFormed k vote order now).2.2.2.certState
        (p.handleVote certStore onCertificateFormed k vote order now).2.2.1) := by
  refine Primary.handleVote_leaves (I := fun _ cs (k' : Formed) =>
      Written (fun c => c.header ∈ (p.headerFor vote.headerDigest).toList)
        (k.certState certStore) (k'.certState cs)) (.refl _) fun _ => ⟨.refl _, ?_⟩
  obtain ⟨vt, hvt, hcases⟩ :=
    p.recordVote_cases certStore onCertificateFormed k vote order now
  have hheader := hvt.forall_pending
    (T := fun d ph => ph.header ∈ (p.headerFor d).toList)
    (fun _ hph => hph) fun d ph hph => by simp [Primary.headerFor, hph]
  rcases hcases with heq | ⟨ph, hph, -, heq⟩
  · rw [heq]
    exact .refl _
  · rw [heq]
    have hcert := hheader _ ph hph
    exact (((Written.refl _).save hcert).add hcert).round _

theorem tryCreateHeader_written [SliceSort] (p : Primary) (certStore : CS) (k : Formed)
    (hasAckQuorum : Hash → Bool) (order : IterOrder Vote) (now : Int) :
    Written (fun c => c.header ∈ p.headersAt certStore hasAckQuorum now)
      (k.certState certStore)
      ((p.tryCreateHeader certStore onCertificateFormed k hasAckQuorum order
          now).2.2.2.certState
        (p.tryCreateHeader certStore onCertificateFormed k hasAckQuorum order now).2.2.1) := by
  have htracked : Formed.Tracked (· ∈ p.headersAt certStore hasAckQuorum now)
      (k.certState certStore) p certStore k := by
    refine ⟨fun d ph hph => List.mem_append_left _ ?_, .refl _⟩
    exact List.mem_map_of_mem (GoMap.mem_values.mpr ⟨d, hph⟩)
  refine (tryCreateHeader_tracked htracked (fun header hheader => ?_) order).written
  exact List.mem_append_right _ (Option.mem_toList.mpr hheader)

theorem started_orderly {l : Looseberry BS CS TI} (h : l.Started) : l.Orderly := by
  obtain ⟨cfg, vs, batchStore, certStore, txIndex, now, rfl⟩ := h
  have hnone : ∀ c, c ∉ (start cfg vs batchStore certStore txIndex now).orphanCerts.values := by
    intro c hc
    exact absurd (GoMap.mem_values.mp hc) (by simp [start])
  refine ⟨⟨fun digest c hget => ?_, fun c hc => ?_, fun c hc => ?_⟩, fun c hc => ?_⟩
  · exact absurd (GoMap.mem_values.mpr ⟨digest, hget⟩) (hnone c)
  · exact absurd hc (hnone c)
  · exact absurd hc (hnone c)
  · exact absurd hc (hnone c)

variable [SliceSort] [BatchStore BS] [TxIndex TI] [AcceptingCertificateStore CS]

/-- No certificate that becomes known without a replay is the last one an orphan waits
for, and none that is added, or waits too, has the slot of an orphan. -/
def Undisturbed (l : Looseberry BS CS TI) (_ : List Output) (ev : Event × Env) : Prop :=
  match ev.1 with
  | .certificateMessage cert => l.Fits cert
  | .syncResponse resp sender =>
    FitsInTurn ev.2 (l.takeSyncResponse resp sender).2 (l.takeSyncResponse resp sender).1
  | .voteMessage vote =>
    ∀ c ∈ l.orphanCerts.values,
      l.dag.Spared l.certStore (l.primary.headerFor vote.headerDigest).toList c
  | .headerTick =>
    ∀ c ∈ l.orphanCerts.values, l.dag.Spared l.certStore
      (l.primary.headersAt l.certStore l.pool.hasBatchAckQuorum ev.2.now) c
  | _ => True

variable [KnowsSaved CS]

omit [AcceptingCertificateStore CS] in
/-- A collection makes slots free and certificates unknown. -/
theorem step_orderly_of_collecting {l m : Looseberry BS CS TI} {ev : Event × Env}
    (h : l.Orderly) (hm : l.collecting ev.1 = some m) : (l.step ev).1.Orderly := by
  obtain ⟨hdag, hstore, -, -, horphans⟩ := step_collected hm
  have hmark : ∀ c ∈ l.orphanCerts.values, m.dag.Awaits l.certStore c := fun c hc =>
    collecting_dag (I := fun d => d.Awaits l.certStore c)
      (fun d round hd => hd.mono (fun r a hnone => (d.slot_setCommittedRound round r a).trans hnone)
        fun _ hknown => hknown) hm (h.tidy c hc)
  obtain ⟨_, _, _, rfl⟩ := collecting_eq hm
  refine ⟨by rw [horphans]; exact h.onePerSlot, fun c hc => ?_⟩
  rw [horphans] at hc
  refine (hmark c hc).mono (fun r a hnone => ?_) fun digest hknown => ?_
  · rcases hdag with heq | ⟨round, heq⟩
    · rw [heq]
      exact hnone
    · rw [heq, Dag.slot_pruneRoundsBefore, hnone, ite_self]
  · rw [Dag.hasCertificate, Bool.or_eq_true] at hknown ⊢
    refine hknown.imp (fun hindex => ?_) fun hhas => ?_
    · rcases hdag with heq | ⟨round, heq⟩
      · rw [heq] at hindex
        exact hindex
      · rw [heq] at hindex
        obtain ⟨c', hget⟩ := GoMap.has_iff.mp hindex
        exact GoMap.has_iff.mpr ⟨c', Dag.certIndex_pruneRoundsBefore hget⟩
    · rcases hstore with heq | ⟨round, heq⟩
      · rw [heq] at hhas
        exact hhas
      · rw [heq] at hhas
        exact KnowsSaved.has_delete hhas

variable [KeepsCertificates CS]

theorem step_orderly {l : Looseberry BS CS TI} {log : List Output} {ev : Event × Env}
    (h : l.Orderly) (hok : l.Undisturbed log ev) : (l.step ev).1.Orderly := by
  cases hcollect : l.collecting ev.1 with
  | some m => exact step_orderly_of_collecting h hcollect
  | none =>
    cases hquiet : quiet ev.1 with
    | true =>
      obtain ⟨-, -, -, -, hdag, hstore, horphans⟩ := l.step_alike ev hquiet
      refine ⟨by rw [horphans]; exact h.onePerSlot, fun c hc => ?_⟩
      rw [horphans] at hc
      rw [hdag, hstore]
      exact h.tidy c hc
    | false =>
      obtain ⟨ev, env⟩ := ev
      cases ev with
      | notifyCommitted | gcTick => exact absurd hcollect (by simp [collecting])
      | updateValidatorSet | voteCleanupTick => exact ⟨h.onePerSlot, h.tidy⟩
      | certificateMessage cert => exact handleCertificateMessage_orderly h hok env
      | syncResponse resp sender =>
        have htaken : (l.takeSyncResponse resp sender).2.Orderly := ⟨h.onePerSlot, h.tidy⟩
        exact foldl_handleCertificateMessage_orderly env htaken hok
      | voteMessage vote =>
        have hwritten := handleVote_written l.primary l.certStore
          { dag := l.dag, flow := l.flow, certs := [] } vote env.votes env.now
        exact ⟨h.onePerSlot, fun c hc => hwritten.awaits (h.tidy c hc).free (hok c hc)⟩
      | headerTick =>
        have hwritten := tryCreateHeader_written l.primary l.certStore
          { dag := l.dag, flow := l.flow, certs := [] } l.pool.hasBatchAckQuorum
          env.votes env.now
        exact ⟨h.onePerSlot, fun c hc => hwritten.awaits (h.tidy c hc).free (hok c hc)⟩
      | _ => exact absurd hquiet (by simp [quiet])

/-- In runs without such events every orphan waits for a parent that is nowhere, with its
slot free, after every event and between the certificates of a response. -/
theorem orphans_await_parents {l : Looseberry BS CS TI} {log : List Output}
    (h : Reach (fun _ => True) Undisturbed l log) :
    l.Tidy ∧ ∀ env resp sender certs,
      FitsInTurn env (l.takeSyncResponse resp sender).2 certs →
        (certs.foldl (fun l cert => l.handleCertificateMessage env cert)
          (l.takeSyncResponse resp sender).2).Tidy := by
  have hl : l.Orderly := Run.Reach.invariant (fun _ h0 => started_orderly h0.1)
    (fun _ _ _ => step_orderly) h
  refine ⟨hl.tidy, fun env resp sender certs hcerts => ?_⟩
  have htaken : (l.takeSyncResponse resp sender).2.Orderly := ⟨hl.onePerSlot, hl.tidy⟩
  exact (foldl_handleCertificateMessage_orderly env htaken hcerts).tidy

end Looseberry

section

open IdealScheme

def middleCertificate : Certificate := votedCertificate 1 1 [] (votedRound 0)

def lastCertificate : Certificate := votedCertificate 1 2 [] [middleCertificate]

/-- Node `0` is sent the last certificate of a chain, the one before it, and the last one
again. The first is not there, so the second is saved and waits, and the third message is
for a certificate whose parents are known. It is added, and stays among the orphans. -/
theorem orphan_in_dag :
    ∃ (l : IdealNode) (log : List Output),
      Looseberry.Reach (fun _ => True)
        (fun _ _ ev => ∃ cert, ev.1 = .certificateMessage cert ∧
          cert.verify (idealValidators 4 0) = .ok ()) l log ∧
      lastCertificate ∈ l.orphanCerts.values ∧
      l.dag.slot lastCertificate.round lastCertificate.author = some lastCertificate ∧
      ∀ ref ∈ lastCertificate.header.parents,
        l.dag.hasCertificate l.certStore ref.digest = true := by
  refine ⟨_, _, reach_idealExec 0 10
    ([lastCertificate, middleCertificate, lastCertificate].map .certificateMessage)
    trivial ?_, ?_⟩
  · exact ⟨⟨_, rfl, by decide +kernel⟩, ⟨_, rfl, by decide +kernel⟩,
      ⟨_, rfl, by decide +kernel⟩, trivial⟩
  · decide +kernel

instance (l : IdealNode) (cert : Certificate) : Decidable (l.Fits cert) :=
  decidable_of_iff
    (l.certStore.closed = false ∧
      (∀ c ∈ l.orphanCerts.values, c.round = cert.round → c.author = cert.author →
        c.header = cert.header) ∧
      (l.dag.Admits l.certStore cert ∨ cert.verify l.primary.validatorSet ≠ .ok () ∨
        ∀ c ∈ l.orphanCerts.values, l.dag.MissesOther l.certStore [cert.header] c))
    ⟨fun h => ⟨h.1, h.2.1, h.2.2⟩, fun h => ⟨h.accepts, h.slots, h.parents⟩⟩

/-- A certificate waits for three parents, of which one comes, and the node goes on. -/
def oneParent : List Event :=
  [.certificateMessage middleCertificate, .certificateMessage (votedCertificate 1 0 [] []),
    .certificateMessage middleCertificate, .headerTick]

theorem orphans_await_parents_one :
    ∃ (l : IdealNode) (log : List Output),
      Looseberry.Reach (fun _ => True) Looseberry.Undisturbed l log ∧
      middleCertificate ∈ l.orphanCerts.values ∧
      l.dag.Awaits l.certStore middleCertificate := by
  have hrun : Looseberry.Reach (fun _ => True) Looseberry.Undisturbed _ _ :=
    reach_idealExec 0 10 oneParent trivial
      ⟨(by decide +kernel : Looseberry.Fits _ _), (by decide +kernel : Looseberry.Fits _ _),
        (by decide +kernel : Looseberry.Fits _ _), (by decide +kernel :
          ∀ c ∈ (idealExec 0 10 (oneParent.take 3)).1.orphanCerts.values,
            Dag.Spared _ _ _ c), trivial⟩
  have hmem : middleCertificate ∈ (idealExec 0 10 oneParent).1.orphanCerts.values := by
    decide +kernel
  exact ⟨_, _, hrun, hmem, (Looseberry.orphans_await_parents hrun).1 _ hmem⟩

end

end DagMempool
