import DagMempool.Proofs.RoundAdvance
import DagMempool.Proofs.SignLog
import DagMempool.Protocol.Ideal

/-!
# What a header that is voted for says

Votes, certificates and the author's signature are all on the digest, and the
digest is a field of the header. `HandleHeader` checks the signature on the digest
and never the digest itself, and so does `Certificate.Verify`. Anybody can put other
content next to a digest that an honest author has signed, and honest validators
vote for it.

A digest that is the hash of the content is not enough either. The bytes carry no
counts, so that ten references to batches read as nine parents, and the references
are sorted before they are hashed, so that their order is nowhere in the digest. A
canonical header leaves no choice in either: the round says how many parents it has,
and its batches stand in an order that all headers share. The headers of an honest
validator are canonical if it queues its batches in that order: it enters a round
only with a quorum for the round before, and nothing is ever taken out of the store.

A header in the name of an honest author is then one this author has made. That
needs an argument about every signature there is, since votes sign the same bytes
as headers: a signature of the author on the digest may be its vote, for a header
it was handed in its own name, and then that one carried an earlier signature.
-/

namespace DagMempool

/-! ## Canonical headers

The bytes of a canonical header can be read: the round says where the parents end, and the order
says how the batches stood before they were sorted. -/

namespace Header

/-- All that the digest is there to cover is the same. -/
structure Agrees (h h' : Header) : Prop extends SameFixed h h' where
  parents : h.parents = h'.parents
  batchRefs : h.batchRefs = h'.batchRefs

variable [Crypto] [SliceSort] {before : BatchDigest → BatchDigest → Prop} {quorum : Nat}

/-- The digest is that of the content, the parents are a quorum, or none in round `0`, and
the batches stand in order. -/
structure Canonical (before : BatchDigest → BatchDigest → Prop) (quorum : Nat) (h : Header) :
    Prop where
  digest : h.digest = h.computeDigest
  parents : h.parents.length = if h.round = 0 then 0 else quorum
  batchRefs : h.batchRefs.Pairwise before

instance [DecidableRel before] (h : Header) : Decidable (h.Canonical before quorum) :=
  decidable_of_iff (h.digest = h.computeDigest ∧
      h.parents.length = (if h.round = 0 then 0 else quorum) ∧ h.batchRefs.Pairwise before)
    ⟨fun hc => ⟨hc.1, hc.2.1, hc.2.2⟩, fun hc => ⟨hc.digest, hc.parents, hc.batchRefs⟩⟩

theorem Canonical.agrees (hbefore : ∀ a b, before a b → before b a → a = b) {h h' : Header}
    (hc : h.Canonical before quorum) (hc' : h'.Canonical before quorum)
    (heq : h.encode = h'.encode) : h.Agrees h' := by
  have hfixed := encode_sameFixed heq
  have hparents : h.parents.length = h'.parents.length := by
    rw [hc.parents, hc'.parents, hfixed.round]
  have hlen := congrArg List.length heq
  rw [length_encode, length_encode] at hlen
  have hsame := encode_sameContent heq (by omega)
  exact ⟨hfixed, hsame.parents, hsame.batchRefs.eq_of_pairwise
    (fun a b _ _ => hbefore a b) hc.batchRefs hc'.batchRefs⟩

end Header

namespace Primary

variable [Crypto] [SliceSort] {CS : Type} [CertificateStore CS] [TalliesRounds CS]
variable {before : BatchDigest → BatchDigest → Prop} {p p' : Primary} {certStore certStore' : CS}

/-- A primary that makes canonical headers. -/
structure Prepared (before : BatchDigest → BatchDigest → Prop) (p : Primary) (certStore : CS) :
    Prop extends p.Grounded certStore where
  queue : p.batchDigests.Pairwise before

omit [SliceSort] in
theorem Prepared.of_works (h : p.Prepared before certStore) {certs : Set Certificate}
    (hworks : p.Works certStore certs p' certStore')
    (hqueue : p'.batchDigests.Pairwise before) : p'.Prepared before certStore' :=
  ⟨hworks.grounded h.toGrounded, hqueue⟩

theorem Prepared.canonical (h : p.Prepared before certStore) {hasAckQuorum : Hash → Bool}
    {now : Int} {out : Option Header × Primary} {digests rest : List BatchDigest}
    (hticked : p.Ticked certStore hasAckQuorum now out digests rest) {header : Header}
    (hheader : out.1 = some header) : header.Canonical before p.validatorSet.quorum := by
  obtain ⟨sig, rfl⟩ := hticked.made header hheader
  exact ⟨rfl, h.length_selectParents, h.queue.sublist hticked.sublist.1⟩

end Primary

namespace World

section

variable [Crypto] [SliceSort] {CS : Type} [CertificateStore CS]
variable {vs : SimpleValidatorSet} {honest : Finset UInt16}
variable {before : BatchDigest → BatchDigest → Prop}

/-- Honest validators are handed canonical headers, and queue their batches in order. -/
def Orderly (before : BatchDigest → BatchDigest → Prop) (vs : SimpleValidatorSet)
    (honest : Finset UInt16) (w : World CS) : WorldEvent → Prop
  | .header i h _ => i ∈ honest → h.Canonical before vs.quorum
  | .batch i digest => i ∈ honest → ∀ queued ∈ (w.primary i).batchDigests, before queued digest
  | _ => True

instance [DecidableRel before] (w : World CS) (e : WorldEvent) :
    Decidable (Orderly before vs honest w e) :=
  match e with
  | .header i h _ => inferInstanceAs (Decidable (i ∈ honest → h.Canonical before vs.quorum))
  | .batch i digest => inferInstanceAs (Decidable
      (i ∈ honest → ∀ queued ∈ (w.primary i).batchDigests, before queued digest))
  | .tick .. | .vote .. | .certificate .. | .ack .. | .cleanup .. => .isTrue trivial

variable {e : WorldEvent} {log : List Signed} {w : World CS}

omit [CertificateStore CS] in
theorem Orderly.genuine (h : Orderly before vs honest w e) : Genuine honest e := by
  cases e with
  | header i header available => exact fun hi => (h hi).digest
  | _ => trivial

omit [SliceSort] [CertificateStore CS] in
theorem forall_set {P : Primary → CS → Prop} (h : ∀ i ∈ honest, P (w.primary i) (w.certStore i))
    {i : UInt16} {p : Primary} {certStore : CS} (hp : i ∈ honest → P p certStore) :
    ∀ j ∈ honest, P ((w.set i p certStore).primary j) ((w.set i p certStore).certStore j) := by
  intro j hj
  by_cases hji : j = i
  · subst hji
    simp only [set, Function.update_self]
    exact hp hj
  · simp only [set, Function.update_of_ne hji]
    exact h j hj

omit [Crypto] [SliceSort] in
theorem noted_records : (noted : CertSink (List Certificate) CS).Records id :=
  ⟨fun _ _ _ => .inl rfl, fun _ _ _ => rfl⟩

theorem step_prepared [TalliesRounds CS]
    (h : ∀ i ∈ honest, (w.primary i).Prepared before (w.certStore i))
    (he : Orderly before vs honest w e) :
    ∀ i ∈ honest, ((w.step e).1.primary i).Prepared before ((w.step e).1.certStore i) := by
  have hstart : ∀ i, Primary.Worked id (w.primary i) (w.certStore i) (w.primary i) (w.certStore i)
      ([] : List Certificate) := fun i => .start _ _ rfl
  cases e with
  | tick i hasAckQuorum order now =>
    refine forall_set h fun hi => ?_
    have hworks := (hstart i).tryCreateHeader noted_records hasAckQuorum order now
    obtain ⟨_, rest, hticked⟩ := (w.primary i).tryCreateHeader_ticked (w.certStore i) noted []
      hasAckQuorum order now
    refine (h i hi).of_works hworks ?_
    obtain ⟨_, _, _, heq⟩ := hticked.voted
    dsimp only at heq
    rw [heq]
    exact (h i hi).queue.sublist hticked.sublist.2
  | vote i vote order now =>
    refine forall_set h fun hi => ?_
    have hworks := (hstart i).handleVote noted_records vote order now
    refine (h i hi).of_works hworks ?_
    obtain ⟨_, _, _, heq⟩ :=
      (w.primary i).handleVote_voted (w.certStore i) noted [] vote order now
    rw [heq]
    exact (h i hi).queue
  | certificate i cert =>
    refine forall_set h fun hi => ?_
    have hworks := (w.primary i).handleCertificate_works (w.certStore i) cert
    refine (h i hi).of_works hworks ?_
    obtain ⟨⟨currentRound, heq⟩, -⟩ := (w.primary i).handleCertificate_eq (w.certStore i) cert
    rw [heq]
    exact (h i hi).queue
  | batch i digest =>
    refine forall_set h fun hi => ⟨⟨(h i hi).sound, (h i hi).parents⟩, ?_⟩
    refine List.pairwise_append.mpr ⟨(h i hi).queue, List.pairwise_singleton _ _, ?_⟩
    intro queued hqueued d hd
    rw [List.mem_singleton.mp hd]
    exact he hi queued hqueued
  | header | ack => exact h
  | cleanup i now =>
    exact forall_set h fun hi => ⟨⟨(h i hi).sound, (h i hi).parents⟩, (h i hi).queue⟩

/-- The headers that honest validators made or voted for are canonical. -/
def CanonicalLog (before : BatchDigest → BatchDigest → Prop) (vs : SimpleValidatorSet)
    (honest : Finset UInt16) (log : List Signed) : Prop :=
  ∀ s ∈ log, s.signer ∈ honest → ∀ header, s.about = some header →
    header.Canonical before vs.quorum

theorem step_canonicalLog [TalliesRounds CS] (hw : w.Steady vs)
    (h : ∀ i ∈ honest, (w.primary i).Prepared before (w.certStore i))
    (hlog : CanonicalLog before vs honest log) (he : Orderly before vs honest w e) :
    CanonicalLog before vs honest (log ++ (w.step e).2) := by
  intro s hs hhonest header habout
  rcases List.mem_append.mp hs with hold | hnew
  · exact hlog s hold hhonest header habout
  · rcases step_signed hw hnew with ⟨i, hasAckQuorum, order, now, header', rfl, rfl, -⟩ |
      ⟨i, header', available, rfl, rfl, -⟩ | ⟨i, batchDigest, round, rfl, rfl⟩
    · cases habout
      obtain ⟨made, hmade, heq⟩ := List.mem_map.mp hnew
      cases heq
      obtain ⟨_, _, hticked⟩ := (w.primary i).tryCreateHeader_ticked (w.certStore i) noted []
        hasAckQuorum order now
      rw [← (hw i).2]
      exact (h i hhonest).canonical hticked (Option.mem_toList.mp hmade)
    · cases habout
      exact he hhonest
    · exact absurd habout (by simp [Signed.about])

/-! ## Whose header it is

By induction on the run: whoever voted for a header in the name of an honest author was shown a
signature, and the first of these was made for the header itself. -/

/-- What honest validators voted for in the name of honest authors was made by them. -/
def VotesBacked (honest : Finset UInt16) (log : List Signed) : Prop :=
  ∀ i header, Signed.vote i header ∈ log → i ∈ honest → header.author ∈ honest →
    ∃ header', Signed.header header.author header' ∈ log ∧ header'.digest = header.digest

omit [CertificateStore CS] in
theorem exists_made (hbound : Bound honest log) (hbacked : VotesBacked honest log) {header : Header}
    (hauthor : header.author ∈ honest) (hdigest : header.digest = header.computeDigest)
    (hcf : CollisionFree (header.encode :: log.map Signed.bytes))
    (hsigned : SignedBy log header.author header.digest) :
    ∃ header', Signed.header header.author header' ∈ log ∧ header'.digest = header.digest := by
  obtain ⟨s, hs, hsigner, header', habout, hd, hbytes⟩ :=
    about_of_signedBy hbound hauthor hdigest hcf hsigned
  cases s with
  | header i _ =>
    cases habout
    cases hsigner
    exact ⟨header', hs, hd⟩
  | vote i _ =>
    cases habout
    cases hsigner
    -- The author's signature was a vote: for a header in its own name.
    have hsame := (Header.encode_sameFixed hbytes).author
    obtain ⟨made, hmade, hmd⟩ := hbacked _ _ hs hauthor (hsame ▸ hauthor)
    rw [← hsame] at hmade
    exact ⟨made, hmade, hmd.trans hd⟩
  | ack i batchDigest round => exact absurd habout (by simp [Signed.about])

theorem step_votesBacked (hw : w.Steady vs) (hbound : Bound honest log)
    (hbacked : VotesBacked honest log) (hauth : Authentic vs honest w log e)
    (hgenuine : Genuine honest e) (hcf : CollisionFree ((log ++ (w.step e).2).map Signed.bytes)) :
    VotesBacked honest (log ++ (w.step e).2) := by
  intro i header hmem hi hauthor
  have hmade : ∃ header', Signed.header header.author header' ∈ log ∧
      header'.digest = header.digest := by
    rcases List.mem_append.mp hmem with hold | hnew
    · exact hbacked i header hold hi hauthor
    · rcases step_signed hw hnew with
        ⟨_, _, _, _, _, -, heq, -⟩ | ⟨i', header', available, rfl, heq, hsig⟩ |
        ⟨_, _, _, -, heq⟩
      · cases heq
      · cases heq
        refine exists_made hbound hbacked hauthor (hgenuine hi) (hcf.mono ?_)
          (hauth hauthor hsig)
        rw [List.map_append]
        intro x hx
        rcases List.mem_cons.mp hx with rfl | hx
        · exact List.mem_append_right _ (List.mem_map_of_mem hnew)
        · exact List.mem_append_left _ hx
      · cases heq
  obtain ⟨header', hheader', hd⟩ := hmade
  exact ⟨header', List.mem_append_left _ hheader', hd⟩

/-- In a run whose bytes do not collide, honest validators sign canonical headers and the
hashes of what they stand for, and votes in the name of honest authors are for headers
they have made. -/
theorem reach_votesBacked [TalliesRounds CS]
    (h : Run.Reach (fun w => w.Started vs ∧ ∀ i, TalliesRounds.sound (w.certStore i)) step
      (fun w log e => Authentic vs honest w log e ∧ Orderly before vs honest w e) w log)
    (hcf : CollisionFree (log.map Signed.bytes)) :
    Bound honest log ∧ CanonicalLog before vs honest log ∧ VotesBacked honest log := by
  have hinv : w.Steady vs ∧ (∀ i ∈ honest, (w.primary i).Prepared before (w.certStore i)) ∧
      Bound honest log ∧ CanonicalLog before vs honest log ∧
      (CollisionFree (log.map Signed.bytes) → VotesBacked honest log) := by
    -- The log only grows, so what does not collide at the end did not collide before.
    refine Run.Reach.invariant
      (I := fun w log => w.Steady vs ∧
        (∀ i ∈ honest, (w.primary i).Prepared before (w.certStore i)) ∧ Bound honest log ∧
        CanonicalLog before vs honest log ∧
        (CollisionFree (log.map Signed.bytes) → VotesBacked honest log))
      (fun w h0 => ?_) (fun w log e hI hok => ?_) h
    · refine ⟨started_steady h0.1, fun i _ => ?_, fun s hs => absurd hs (by simp),
        fun s hs => absurd hs (by simp), fun _ i header hs => absurd hs (by simp)⟩
      obtain ⟨signer, cfg, hp⟩ := h0.1 i
      rw [hp]
      exact ⟨⟨h0.2 i, .inl rfl⟩, .nil⟩
    · obtain ⟨hsteady, hprepared, hbound, hcanonical, hbacked⟩ := hI
      refine ⟨step_steady hsteady e, step_prepared hprepared hok.2,
        step_bound hsteady hbound hok.2.genuine,
        step_canonicalLog hsteady hprepared hcanonical hok.2, fun hcf => ?_⟩
      have hcf' : CollisionFree (log.map Signed.bytes) := hcf.mono (by
        rw [List.map_append]
        exact List.subset_append_left _ _)
      exact step_votesBacked hsteady hbound (hbacked hcf') hok.1 hok.2.genuine hcf
  exact ⟨hinv.2.2.1, hinv.2.2.2.1, hinv.2.2.2.2 hcf⟩

/-- Headers that honest validators voted for, and canonical headers of certificates that
verify. -/
inductive Accepted (before : BatchDigest → BatchDigest → Prop) (vs : SimpleValidatorSet)
    (honest : Finset UInt16) (log : List Signed) : Header → Prop
  | voted {i : UInt16} {header : Header} (hi : i ∈ honest)
      (h : Signed.vote i header ∈ log) : Accepted before vs honest log header
  | certified {c : Certificate} (hverify : c.verify vs = .ok ())
      (hauth : UnforgedCertificate vs honest log c)
      (hcanonical : c.header.Canonical before vs.quorum) : Accepted before vs honest log c.header

/-- In a run without forged signatures in which honest validators are handed canonical
headers and queue their batches in order: an accepted header has the digest of its
content; if its author is honest, the author has made a header with all its fields; and
accepted headers with one digest agree in all fields. -/
theorem accepted_headers_bound [TalliesRounds CS]
    (hbefore : ∀ a b, before a b → before b a → a = b) {w : World CS} {log : List Signed}
    {headers : List Header}
    (h : Run.Reach (fun w => w.Started vs ∧ ∀ i, TalliesRounds.sound (w.certStore i)) step
      (fun w log e => Authentic vs honest w log e ∧ Orderly before vs honest w e) w log)
    (haccepted : ∀ header ∈ headers, Accepted before vs honest log header)
    (hcf : CollisionFree (headers.map Header.encode ++ log.map Signed.bytes)) :
    (∀ header ∈ headers, header.digest = header.computeDigest ∧
      (header.author ∈ honest → ∃ made, Signed.header header.author made ∈ log ∧
        made.digest = header.digest ∧ header.Agrees made)) ∧
    ∀ h₁ ∈ headers, ∀ h₂ ∈ headers, h₁.digest = h₂.digest → h₁.Agrees h₂ := by
  obtain ⟨hbound, hlog, hbacked⟩ := reach_votesBacked h
    (hcf.mono (List.subset_append_right _ _))
  have hcanonical : ∀ header ∈ headers, header.Canonical before vs.quorum := by
    intro header hmem
    cases haccepted header hmem with
    | voted hi hvote => exact hlog _ hvote hi _ rfl
    | certified _ _ hcanonical => exact hcanonical
  have hin : ∀ header ∈ headers,
      header.encode ∈ headers.map Header.encode ++ log.map Signed.bytes :=
    fun header hmem => List.mem_append_left _ (List.mem_map_of_mem hmem)
  -- One digest is one string of bytes, and that determines a canonical header.
  have hagrees : ∀ {h₁ h₂ : Header}, h₁.Canonical before vs.quorum →
      h₂.Canonical before vs.quorum →
      h₁.encode ∈ headers.map Header.encode ++ log.map Signed.bytes →
      h₂.encode ∈ headers.map Header.encode ++ log.map Signed.bytes →
      h₁.digest = h₂.digest → h₁.Agrees h₂ := fun hc₁ hc₂ hm₁ hm₂ heq =>
    hc₁.agrees hbefore hc₂ (hcf _ hm₁ _ hm₂ (hc₁.digest.symm.trans (heq.trans hc₂.digest)))
  refine ⟨fun header hmem => ⟨(hcanonical header hmem).digest, fun hauthor => ?_⟩,
    fun h₁ hm₁ h₂ hm₂ => hagrees (hcanonical h₁ hm₁) (hcanonical h₂ hm₂) (hin h₁ hm₁) (hin h₂ hm₂)⟩
  have hmade : ∃ made, Signed.header header.author made ∈ log ∧ made.digest = header.digest := by
    cases haccepted header hmem with
    | voted hi hvote => exact hbacked _ header hvote hi hauthor
    | certified hverify hauth hc =>
      have hsigned := hauth.1 hauthor (Certificate.verify_eq_ok.mp hverify).author
      refine exists_made hbound hbacked hauthor hc.digest (hcf.mono fun x hx => ?_) hsigned
      rcases List.mem_cons.mp hx with rfl | hx
      · exact hin _ hmem
      · exact List.mem_append_right _ hx
  obtain ⟨made, hmade, hd⟩ := hmade
  have hin' : made.encode ∈ headers.map Header.encode ++ log.map Signed.bytes :=
    List.mem_append_right _ (List.mem_map_of_mem (f := Signed.bytes) hmade)
  exact ⟨made, hmade, hd, hagrees (hcanonical header hmem) (hlog _ hmade hauthor _ rfl)
    (hin header hmem) hin' hd.symm⟩

end

end World

section

open IdealScheme

/-- The header validator `0` makes at its first tick, and the same with another time. -/
def madeHeader : Header := idealHeader 0 0 [] [] 1

def alteredHeader : Header := { madeHeader with timestamp := 99 }

def alteredRun : List WorldEvent :=
  [idealTick 0 1, .header 1 alteredHeader true, .header 2 alteredHeader true]

/-- Everybody is honest, no signature is forged and no hashes collide. Two validators vote
for the altered header, their votes and the author's make a certificate of it, and the
author never made it. -/
theorem altered_header_accepted :
    ∃ (w : IdealWorld) (log : List Signed),
      Run.Reach (World.Started (idealValidators 4 0)) World.step
        (World.Authentic (idealValidators 4 0) idealIndices) w log ∧
      CollisionFree (log.map Signed.bytes) ∧
      Signed.vote 1 alteredHeader ∈ log ∧
      alteredHeader.digest ≠ alteredHeader.computeDigest ∧
      (∀ header, Signed.header alteredHeader.author header ∈ log →
        header.timestamp ≠ alteredHeader.timestamp) ∧
      (idealCertificate alteredHeader [0, 1, 2]).verify (idealValidators 4 0) = .ok () ∧
      World.UnforgedCertificate (idealValidators 4 0) idealIndices log
        (idealCertificate alteredHeader [0, 1, 2]) := by
  have hlog : (idealWorldExec alteredRun).2 =
      [.header 0 madeHeader, .vote 1 alteredHeader, .vote 2 alteredHeader] := by
    decide +kernel
  refine ⟨_, _, reach_idealWorldExec alteredRun ?_, ?_, ?_, ?_, ?_, ?_, ?_⟩
  · decide +kernel
  · rw [hlog]
    decide +kernel
  · rw [hlog]
    exact List.mem_cons_of_mem _ List.mem_cons_self
  · decide +kernel
  · intro header hmem
    rw [hlog] at hmem
    simp only [List.mem_cons, Signed.header.injEq, reduceCtorEq, List.not_mem_nil,
      or_false] at hmem
    rw [hmem.2]
    decide +kernel
  · decide +kernel
  · rw [hlog]
    decide +kernel

/-- Two batches, in the order in which validator `0` has queued them. -/
def firstQueued : BatchDigest := ⟨2, 0, 0⟩

def thenQueued : BatchDigest := ⟨1, 0, 0⟩

def queuedBefore (a b : BatchDigest) : Prop := a = b ∨ a = firstQueued ∧ b = thenQueued
deriving Decidable

def queuedHeader : Header := idealHeader 0 0 [firstQueued, thenQueued] [] 1

def queuedRun : List WorldEvent :=
  [.batch 0 firstQueued, .batch 0 thenQueued, idealTick 0 1, .header 1 queuedHeader true,
    .header 2 queuedHeader true]

theorem accepted_headers_bound_made :
    ∃ (w : IdealWorld) (log : List Signed),
      Run.Reach (fun w => w.Started (idealValidators 4 0) ∧
          ∀ i, TalliesRounds.sound (w.certStore i)) World.step
        (fun w log e => World.Authentic (idealValidators 4 0) idealIndices w log e ∧
          World.Orderly queuedBefore (idealValidators 4 0) idealIndices w e) w log ∧
      queuedHeader.digest = queuedHeader.computeDigest ∧
      ∃ made, Signed.header 0 made ∈ log ∧ queuedHeader.Agrees made := by
  have hrun : Run.Reach (fun w => w.Started (idealValidators 4 0) ∧
        ∀ i, TalliesRounds.sound (w.certStore i)) World.step
      (fun w log e => World.Authentic (idealValidators 4 0) idealIndices w log e ∧
        World.Orderly queuedBefore (idealValidators 4 0) idealIndices w e)
      (idealWorldExec queuedRun).1 (idealWorldExec queuedRun).2 :=
    Run.Reach.of_exec ⟨started_idealWorld, fun _ => MemoryCertificateStore.sound_new⟩
      (by decide +kernel)
  have haccepted : ∀ header ∈ [queuedHeader, (idealCertificate queuedHeader [0, 1, 2]).header],
      World.Accepted queuedBefore (idealValidators 4 0) idealIndices (idealWorldExec queuedRun).2
        header := by
    intro header hmem
    rcases List.mem_cons.mp hmem with rfl | hmem
    · exact .voted (i := 1) (by decide) (by decide +kernel)
    · rw [List.mem_singleton.mp hmem]
      exact .certified (by decide +kernel) (by decide +kernel) (by decide +kernel)
  have hbefore : ∀ a b, queuedBefore a b → queuedBefore b a → a = b := by
    rintro a b (rfl | ⟨rfl, rfl⟩) (hba | ⟨hba, -⟩)
    · rfl
    · rfl
    · exact hba.symm
    · exact absurd hba (by decide)
  have h := (World.accepted_headers_bound hbefore hrun haccepted (by decide +kernel)).1
    queuedHeader List.mem_cons_self
  obtain ⟨made, hmade, -, hagrees⟩ := h.2 (by decide +kernel)
  exact ⟨_, _, hrun, h.1, made, hmade, hagrees⟩

end

end DagMempool
