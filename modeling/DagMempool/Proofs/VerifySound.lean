import DagMempool.Types.Ideal

/-!
# What an accepted certificate proves

`Verify` checks that the vote list is long enough, that the author's signature
is valid, and that every vote is a valid signature of a known validator over the
digest. Every vote it has looked at is therefore evidence from some validator.
What it does not check is that the votes come from different validators: a list
that repeats one vote `2F + 1` times passes every check. So an accepted
certificate shows a quorum of validators exactly when its vote list names a
quorum of different indices.

The signer mask plays no part: `Verify` never reads it.
-/

namespace DagMempool

namespace Certificate

/-- The different validator indices the votes name. -/
def voters (c : Certificate) : Finset UInt16 := (c.votes.map (·.validator)).toFinset

variable [Crypto]

/-- The validators of the set with a valid vote for the digest in the list. -/
def voteSigners (c : Certificate) (vs : SimpleValidatorSet) : Finset UInt16 :=
  vs.indices.filter fun i =>
    ∃ vote ∈ c.votes, vote.validator = i ∧ vs.verifySignature i c.digest vote.signature = true

/-- The validators of the set with a valid signature over the digest anywhere in
the certificate, so with the author's signature of the header counted too. -/
def signers (c : Certificate) (vs : SimpleValidatorSet) : Finset UInt16 :=
  vs.indices.filter fun i =>
    (c.author = i ∧ vs.verifySignature i c.digest c.header.signature = true) ∨
      i ∈ c.voteSigners vs

/-- One of the checks of `Verify` fails: too few entries, a header its author has
not signed, or an entry that is no valid vote for this digest. -/
def Rejected (c : Certificate) (vs : SimpleValidatorSet) : Prop :=
  c.votes.length < vs.quorum ∨
    vs.verifySignature c.author c.digest c.header.signature = false ∨
    ∃ vote ∈ c.votes, vote.headerDigest ≠ c.digest ∨
      vs.verifySignature vote.validator c.digest vote.signature = false

variable {vs : SimpleValidatorSet} {c : Certificate} {i : UInt16}

theorem mem_indices_of_verifySignature {d : Hash} {s : Signature} (hd : vs.Distinct)
    (h : vs.verifySignature i d s = true) : i ∈ vs.indices := by
  obtain ⟨v, hv, -⟩ := SimpleValidatorSet.verifySignature_eq_true.mp h
  exact SimpleValidatorSet.mem_indices_of_getByIndex hd hv

omit [Crypto] in
theorem mem_voters : i ∈ c.voters ↔ ∃ vote ∈ c.votes, vote.validator = i := by
  simp [voters]

theorem mem_voteSigners (hd : vs.Distinct) :
    i ∈ c.voteSigners vs ↔
      ∃ vote ∈ c.votes, vote.validator = i ∧
        vs.verifySignature i c.digest vote.signature = true := by
  rw [voteSigners, Finset.mem_filter]
  refine ⟨fun h => h.2, fun h => ⟨?_, h⟩⟩
  obtain ⟨vote, -, -, hsig⟩ := h
  exact mem_indices_of_verifySignature hd hsig

theorem mem_signers (hd : vs.Distinct) :
    i ∈ c.signers vs ↔
      (c.author = i ∧ vs.verifySignature i c.digest c.header.signature = true) ∨
        i ∈ c.voteSigners vs := by
  rw [signers, Finset.mem_filter]
  refine ⟨fun h => h.2, fun h => ⟨?_, h⟩⟩
  rcases h with ⟨-, hsig⟩ | hvote
  · exact mem_indices_of_verifySignature hd hsig
  · exact (Finset.mem_filter.mp hvote).1

theorem verified_or_rejected (vs : SimpleValidatorSet) (c : Certificate) :
    Verified vs c ∨ c.Rejected vs := by
  by_cases hq : c.votes.length < vs.quorum
  · exact .inr (.inl hq)
  cases ha : vs.verifySignature c.author c.digest c.header.signature with
  | false => exact .inr (.inr (.inl ha))
  | true =>
    by_cases hbad : ∃ vote ∈ c.votes, vote.headerDigest ≠ c.digest ∨
        vs.verifySignature vote.validator c.digest vote.signature = false
    · exact .inr (.inr (.inr hbad))
    · refine .inl ⟨by omega, ha, fun vote hv => ⟨?_, ?_⟩⟩
      · by_contra hne
        exact hbad ⟨vote, hv, .inl hne⟩
      · cases hs : vs.verifySignature vote.validator c.digest vote.signature with
        | true => rfl
        | false => exact absurd ⟨vote, hv, .inr hs⟩ hbad

theorem Verified.not_rejected (h : Verified vs c) : ¬ c.Rejected vs := by
  rintro (hq | ha | ⟨vote, hv, hne | hsig⟩)
  · exact absurd h.quorum (by omega)
  · exact absurd h.author (by simp [ha])
  · exact hne (h.votes vote hv).headerDigest
  · exact absurd (h.votes vote hv).signed (by simp [hsig])

theorem Verified.voteSigners_eq (hd : vs.Distinct) (h : Verified vs c) :
    c.voteSigners vs = c.voters := by
  ext i
  rw [mem_voteSigners hd, mem_voters]
  constructor
  · rintro ⟨vote, hv, hi, -⟩
    exact ⟨vote, hv, hi⟩
  · rintro ⟨vote, hv, rfl⟩
    exact ⟨vote, hv, rfl, (h.votes vote hv).signed⟩

theorem Verified.signers_eq (hd : vs.Distinct) (h : Verified vs c) :
    c.signers vs = insert c.author c.voters := by
  ext i
  rw [mem_signers hd, h.voteSigners_eq hd, Finset.mem_insert]
  constructor
  · rintro (⟨rfl, -⟩ | hi)
    · exact .inl rfl
    · exact .inr hi
  · rintro (rfl | hi)
    · exact .inl ⟨rfl, h.author⟩
    · exact .inr hi

theorem verify_imp_iff {P : Prop} {Q : Prop} (hPQ : Verified vs c → (P ↔ Q)) :
    (c.verify vs = .ok () → P) ↔ c.Rejected vs ∨ Q := by
  rw [verify_eq_ok]
  constructor
  · intro h
    rcases verified_or_rejected vs c with hv | hr
    · exact .inr ((hPQ hv).mp (h hv))
    · exact .inl hr
  · rintro (hr | hq) hv
    · exact absurd hr hv.not_rejected
    · exact (hPQ hv).mpr hq

/-- `Verify` guarantees a quorum of different signers for exactly those
certificates it rejects or whose votes name a quorum of different validators.
The first part asks for a quorum among the votes, the second also counts the
author's signature of the header. -/
theorem verify_sound_iff (vs : SimpleValidatorSet) (hd : vs.Distinct) (c : Certificate) :
    ((c.verify vs = .ok () → vs.quorum ≤ (c.voteSigners vs).card) ↔
      c.Rejected vs ∨ vs.quorum ≤ c.voters.card) ∧
    ((c.verify vs = .ok () → vs.quorum ≤ (c.signers vs).card) ↔
      c.Rejected vs ∨ vs.quorum ≤ (insert c.author c.voters).card) :=
  ⟨verify_imp_iff fun hv => by rw [hv.voteSigners_eq hd],
   verify_imp_iff fun hv => by rw [hv.signers_eq hd]⟩

end Certificate

section

attribute [local instance] idealCrypto

/-- Three different voters of four validators: the quorum is shown. -/
theorem verify_sound_three_voters :
    let c := idealCertificate (idealHeader 0 0 [] [] 0) [1, 2, 3]
    c.verify (idealValidators 4 0) = .ok () ∧
      (idealValidators 4 0).quorum ≤ (c.voteSigners (idealValidators 4 0)).card := by
  intro c
  have hok : c.verify (idealValidators 4 0) = .ok () := by decide +kernel
  have hq : (idealValidators 4 0).quorum ≤ c.voters.card := by decide +kernel
  exact ⟨hok, (Certificate.verify_sound_iff _ (by decide +kernel) c).1.mpr (.inr hq) hok⟩

/-- One vote of the author's, three times over, is accepted as a quorum of four
validators. -/
theorem repeated_vote_accepted :
    let c := idealCertificate (idealHeader 0 0 [] [] 0) [0, 0, 0]
    (idealValidators 4 0).Distinct ∧ (idealValidators 4 0).quorum = 3 ∧
      c.verify (idealValidators 4 0) = .ok () ∧
      (c.voteSigners (idealValidators 4 0)).card = 1 ∧
      (c.signers (idealValidators 4 0)).card = 1 := by
  decide +kernel

end

end DagMempool
