import DagMempool.Lib.Quorum
import DagMempool.Proofs.SignLog
import DagMempool.Proofs.VerifySound
import DagMempool.Protocol.Ideal

/-!
# Certified equivocation

Two certificates of one author and round share an honest voter, by the size of
quorums, and an honest validator is supposed to vote once for an author and a
round. Nothing in the code sees to it. `HandleHeader` keeps no record of what it
voted for; a tick of the header loop makes a new header whenever it runs, in the
same round as long as the round does not advance; a quorum of entries in a
certificate need not be of different validators; and the digest may stand next to
other content. So even among honest validators two headers of one author are
certified in one round.

With the rule imposed from outside, the argument goes through. `VoteOnce` is the
rule, as a condition on what is handed to honest validators and on when their header
loop ticks. That the digests are those of the content, and that the certificates
have votes of a quorum of different validators, is asked of what is compared.
-/

namespace DagMempool

namespace World

section

variable [Crypto] [SliceSort] {CS : Type} [CertificateStore CS]
variable {vs : SimpleValidatorSet} {honest : Finset UInt16}

/-- An honest validator is handed a header only if it has the digest of its content and
no other digest was signed for its author and round, and makes a header only in a
round in which it has made none. -/
def VoteOnce (honest : Finset UInt16) (w : World CS) (log : List Signed) : WorldEvent → Prop
  | .header i header _ => i ∈ honest → header.digest = header.computeDigest ∧
      ∀ s ∈ log, s.signer = i → ∀ header' ∈ s.about, header'.author = header.author →
        header'.round = header.round → header'.digest = header.digest
  | .tick i _ _ _ => i ∈ honest → ∀ s ∈ log, s.signer = i → ∀ header' ∈ s.about,
      ¬ (header'.author = i ∧ header'.round = (w.primary i).currentRound)
  | _ => True

instance (honest : Finset UInt16) (w : World CS) (log : List Signed) (e : WorldEvent) :
    Decidable (VoteOnce honest w log e) :=
  match e with
  | .header .. => inferInstanceAs (Decidable (_ ∈ honest → _ = _ ∧
      ∀ s ∈ log, s.signer = _ → ∀ header' ∈ s.about, header'.author = _ →
        header'.round = _ → header'.digest = _))
  | .tick .. => inferInstanceAs (Decidable (_ ∈ honest → ∀ s ∈ log, s.signer = _ →
      ∀ header' ∈ s.about, ¬ (header'.author = _ ∧ header'.round = _)))
  | .vote .. | .certificate .. | .batch .. | .ack .. | .cleanup .. => .isTrue trivial

variable {w : World CS} {log : List Signed}

omit [CertificateStore CS] in
theorem VoteOnce.genuine {e : WorldEvent} (h : VoteOnce honest w log e) : Genuine honest e := by
  cases e with
  | header i header available => exact fun hi => (h hi).1
  | _ => trivial

/-- Each honest validator has signed at most one digest for an author and a round. -/
def SignedOnce (honest : Finset UInt16) (log : List Signed) : Prop :=
  ∀ s ∈ log, ∀ s' ∈ log, s.signer ∈ honest → s'.signer = s.signer →
    ∀ header ∈ s.about, ∀ header' ∈ s'.about, header'.author = header.author →
      header'.round = header.round → header'.digest = header.digest

theorem step_agrees {e : WorldEvent} (hw : w.Steady vs) (he : VoteOnce honest w log e)
    {s s' : Signed} (hs : s ∈ (w.step e).2) (hs' : s' ∈ log) (hhonest : s.signer ∈ honest)
    (hsigner : s'.signer = s.signer) {header header' : Header} (hheader : header ∈ s.about)
    (hheader' : header' ∈ s'.about) (hauthor : header'.author = header.author)
    (hround : header'.round = header.round) : header'.digest = header.digest := by
  rcases step_signed hw hs with
    ⟨i, _, _, _, made, rfl, rfl, hmadeAuthor, hmadeRound, -⟩ | ⟨i, voted, _, rfl, rfl, -⟩ |
    ⟨i, _, _, rfl, rfl⟩
  · cases hheader
    exact (he hhonest s' hs' hsigner header' hheader'
      ⟨hauthor.trans hmadeAuthor, hround.trans hmadeRound⟩).elim
  · cases hheader
    exact (he hhonest).2 s' hs' hsigner header' hheader' hauthor hround
  · exact absurd hheader (by simp [Signed.about])

theorem step_signed_toList (w : World CS) (e : WorldEvent) :
    ∃ signed : Option Signed, (w.step e).2 = signed.toList := by
  cases e with
  | tick i hasAckQuorum order now => exact ⟨_, Option.toList_map.symm⟩
  | header i header available =>
    unfold step
    dsimp only
    split
    · exact ⟨some _, rfl⟩
    · exact ⟨none, rfl⟩
  | ack i batchDigest round =>
    unfold step
    dsimp only
    split
    · exact ⟨some _, rfl⟩
    · exact ⟨none, rfl⟩
  | vote | certificate | batch | cleanup => exact ⟨none, rfl⟩

theorem step_signedOnce {e : WorldEvent} (hw : w.Steady vs) (hlog : SignedOnce honest log)
    (he : VoteOnce honest w log e) : SignedOnce honest (log ++ (w.step e).2) := by
  intro s hs s' hs' hhonest hsigner header hheader header' hheader' hauthor hround
  rcases List.mem_append.mp hs with hold | hnew
  · rcases List.mem_append.mp hs' with hold' | hnew'
    · exact hlog s hold s' hold' hhonest hsigner header hheader header' hheader' hauthor hround
    · exact (step_agrees hw he hnew' hold (hsigner ▸ hhonest) hsigner.symm hheader' hheader
        hauthor.symm hround.symm).symm
  · rcases List.mem_append.mp hs' with hold' | hnew'
    · exact step_agrees hw he hnew hold' hhonest hsigner hheader hheader' hauthor hround
    · obtain ⟨signed, heq⟩ := step_signed_toList w e
      rw [heq, Option.mem_toList] at hnew hnew'
      rw [Option.mem_unique hnew hnew'] at hheader
      rw [Option.mem_unique hheader hheader']

theorem reach_signedOnce (h : Run.Reach (Started vs) step (VoteOnce honest) w log) :
    Bound honest log ∧ SignedOnce honest log := by
  have hinv : w.Steady vs ∧ Bound honest log ∧ SignedOnce honest log :=
    Run.Reach.invariant
      (I := fun w log => w.Steady vs ∧ Bound honest log ∧ SignedOnce honest log)
      (fun w h0 => ⟨started_steady h0, fun s hs => absurd hs (by simp),
        fun s hs => absurd hs (by simp)⟩)
      (fun w log e hI hok => ⟨step_steady hI.1 e, step_bound hI.1 hI.2.1 hok.genuine,
        step_signedOnce hI.1 hI.2.2 hok⟩) h
  exact hinv.2

/-! ## Two certificates

Two quorums of the validators share more than may be faulty, so an honest validator is named in
both certificates. What it is named for it has signed. -/

omit [SliceSort] in
theorem signedBy_of_mem_voters {c : Certificate} {i : UInt16} (hverify : c.verify vs = .ok ())
    (hauth : UnforgedCertificate vs honest log c) (hvoter : i ∈ c.voters) (hi : i ∈ honest) :
    SignedBy log i c.header.digest := by
  obtain ⟨vote, hvote, rfl⟩ := Certificate.mem_voters.mp hvoter
  obtain ⟨hdigest, hsigned⟩ := (Certificate.verify_eq_ok.mp hverify).votes vote hvote
  have hsignedBy := hauth.2 vote hvote hi (by rw [hdigest]; exact hsigned)
  rw [hdigest] at hsignedBy
  exact hsignedBy

omit [SliceSort] in
theorem voters_subset_indices (hd : vs.Distinct) {c : Certificate}
    (hverify : c.verify vs = .ok ()) : c.voters ⊆ vs.indices := by
  intro i hi
  obtain ⟨vote, hvote, rfl⟩ := Certificate.mem_voters.mp hi
  have hsigned := ((Certificate.verify_eq_ok.mp hverify).votes vote hvote).signed
  exact Certificate.mem_indices_of_verifySignature hd hsigned

/-- Of `3f + 1` validators at most `f` are not honest, and the honest ones vote once. Then
two certificates of one author and round, each with the digest of its content and
verified votes of a quorum of different validators, have the same digest. -/
theorem certificates_unique {w : World CS} {log : List Signed} (hd : vs.Distinct)
    (hcount : vs.count = 3 * vs.f + 1) (hfaulty : (vs.indices \ honest).card ≤ vs.f)
    (h : Run.Reach (Started vs) step (VoteOnce honest) w log) {c₁ c₂ : Certificate}
    (hverify₁ : c₁.verify vs = .ok ()) (hverify₂ : c₂.verify vs = .ok ())
    (hauth₁ : UnforgedCertificate vs honest log c₁)
    (hauth₂ : UnforgedCertificate vs honest log c₂)
    (hvoters₁ : vs.quorum ≤ c₁.voters.card) (hvoters₂ : vs.quorum ≤ c₂.voters.card)
    (hdigest₁ : c₁.header.digest = c₁.header.computeDigest)
    (hdigest₂ : c₂.header.digest = c₂.header.computeDigest)
    (hcf : CollisionFree
      (c₁.header.encode :: c₂.header.encode :: log.map Signed.bytes))
    (hauthor : c₁.author = c₂.author) (hround : c₁.round = c₂.round) :
    c₁.digest = c₂.digest := by
  obtain ⟨hbound, honce⟩ := reach_signedOnce h
  have hquorum : vs.indices.card + vs.f < 2 * vs.quorum := by
    rw [SimpleValidatorSet.card_indices hd, hcount, SimpleValidatorSet.quorum]
    omega
  obtain ⟨i, hi₁, hi₂, hi⟩ := Quorum.exists_honest_inter
    (voters_subset_indices hd hverify₁) (voters_subset_indices hd hverify₂)
    hvoters₁ hvoters₂ hfaulty hquorum
  have hhonest : i ∈ honest := by
    by_contra hno
    exact hi (Finset.mem_sdiff.mpr ⟨voters_subset_indices hd hverify₁ hi₁, hno⟩)
  -- The honest validator in both signed two headers with the bytes of these two.
  obtain ⟨s₁, hs₁, hsigner₁, h₁, habout₁, hd₁, hbytes₁⟩ := about_of_signedBy hbound hhonest
    hdigest₁ (hcf.mono (List.cons_subset_cons _ (List.subset_cons_self _ _)))
    (signedBy_of_mem_voters hverify₁ hauth₁ hi₁ hhonest)
  obtain ⟨s₂, hs₂, hsigner₂, h₂, habout₂, hd₂, hbytes₂⟩ := about_of_signedBy hbound hhonest
    hdigest₂ (hcf.mono (List.subset_cons_self _ _))
    (signedBy_of_mem_voters hverify₂ hauth₂ hi₂ hhonest)
  have hsame₁ := Header.encode_sameFixed hbytes₁
  have hsame₂ := Header.encode_sameFixed hbytes₂
  have heq := honce s₂ hs₂ s₁ hs₁ (hsigner₂ ▸ hhonest) (hsigner₁.trans hsigner₂.symm)
    h₂ habout₂ h₁ habout₁
    (hsame₁.author.symm.trans (hauthor.trans hsame₂.author))
    (hsame₁.round.symm.trans (hround.trans hsame₂.round))
  exact hd₁.symm.trans (heq.trans hd₂)

end

end World

section

open IdealScheme

def tickedHeader (now : Int64) : Header := idealHeader 0 0 [] [] now

/-- The certificate of it when the votes of `1` and `2` have arrived. -/
def tickedCertificate (now : Int64) : Certificate :=
  idealCertificate (tickedHeader now) [0, 1, 2]

/-- Two ticks, with both headers voted for by `1` and `2` and all votes returned. -/
def twoTicks : List WorldEvent :=
  [idealTick 0 1, idealTick 0 2,
    .header 1 (tickedHeader 1) true, .header 2 (tickedHeader 1) true,
    .header 1 (tickedHeader 2) true, .header 2 (tickedHeader 2) true,
    .vote 0 (idealVote (tickedHeader 1).digest 1) .listed 3,
    .vote 0 (idealVote (tickedHeader 1).digest 2) .listed 4,
    .vote 0 (idealVote (tickedHeader 2).digest 1) .listed 5,
    .vote 0 (idealVote (tickedHeader 2).digest 2) .listed 6]

/-- Everybody is honest, no signature is forged, no hashes collide, and every message is
as it was sent. The author forms and stores two certificates of its round `0`. -/
theorem two_certificates_in_one_round :
    ∃ (w : IdealWorld) (log : List Signed) (c₁ c₂ : Certificate),
      Run.Reach (World.Started (idealValidators 4 0)) World.step
        (World.Authentic (idealValidators 4 0) idealIndices) w log ∧
      CollisionFree (log.map Signed.bytes) ∧
      CertificateStore.getCertificate (w.certStore 0) c₁.digest = .ok c₁ ∧
      CertificateStore.getCertificate (w.certStore 0) c₂.digest = .ok c₂ ∧
      c₁.verify (idealValidators 4 0) = .ok () ∧ c₂.verify (idealValidators 4 0) = .ok () ∧
      World.UnforgedCertificate (idealValidators 4 0) idealIndices log c₁ ∧
      World.UnforgedCertificate (idealValidators 4 0) idealIndices log c₂ ∧
      c₁.author = c₂.author ∧ c₁.round = c₂.round ∧ c₁.digest ≠ c₂.digest := by
  refine ⟨_, _, tickedCertificate 1, tickedCertificate 2, reach_idealWorldExec twoTicks ?_, ?_⟩
  · decide +kernel
  · decide +kernel

def oneTick : List WorldEvent :=
  [idealTick 0 1, .header 1 (tickedHeader 1) true, .header 2 (tickedHeader 1) true,
    .header 3 (tickedHeader 1) true]

theorem certificates_unique_one_tick :
    ∃ (w : IdealWorld) (log : List Signed),
      Run.Reach (World.Started (idealValidators 4 0)) World.step
        (World.VoteOnce {0, 1, 2}) w log ∧
      (idealCertificate (tickedHeader 1) [0, 1, 2]).digest =
        (idealCertificate (tickedHeader 1) [1, 2, 3]).digest := by
  have hrun : Run.Reach (World.Started (idealValidators 4 0)) World.step
      (World.VoteOnce {0, 1, 2}) (idealWorldExec oneTick).1 (idealWorldExec oneTick).2 :=
    reach_idealWorldExec oneTick (by decide +kernel)
  have hverify₁ : (idealCertificate (tickedHeader 1) [0, 1, 2]).verify
      (idealValidators 4 0) = .ok () := by decide +kernel
  have hverify₂ : (idealCertificate (tickedHeader 1) [1, 2, 3]).verify
      (idealValidators 4 0) = .ok () := by decide +kernel
  exact ⟨_, _, hrun, World.certificates_unique (by decide) (by decide) (by decide) hrun
    hverify₁ hverify₂ (by decide +kernel) (by decide +kernel) (by decide) (by decide)
    (by decide +kernel) (by decide +kernel) (by decide +kernel) rfl rfl⟩

end

end DagMempool
