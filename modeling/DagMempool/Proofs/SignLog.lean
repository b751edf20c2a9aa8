import DagMempool.Proofs.PrimaryRule
import DagMempool.Protocol.World

/-!
# The log of signatures

What the keys of honest validators have been used for decides what a valid
signature proves. The lemmas here say which records a step can add, and then what
a record of an honest validator is evidence of. If the digests on the log are the
hashes of what they stand for, and none of these strings collide, then a signature
on the digest of a header is a signature on that header: not on another one, and
not on an acknowledgment, whose bytes have a length no header has.
-/

namespace DagMempool

namespace World

variable [Crypto] [SliceSort] {CS : Type} [CertificateStore CS]

/-- Every primary keeps its index and the set it started with. -/
def Steady (vs : SimpleValidatorSet) (w : World CS) : Prop :=
  ∀ i, (w.primary i).validatorID = i ∧ (w.primary i).validatorSet = vs

theorem handleVote_identity (p : Primary) {κ : Type} (certStore : CS) (sink : CertSink κ CS)
    (k : κ) (vote : Vote) (order : IterOrder Vote) (now : Int) :
    (p.handleVote certStore sink k vote order now).2.1.validatorID = p.validatorID ∧
      (p.handleVote certStore sink k vote order now).2.1.validatorSet = p.validatorSet := by
  obtain ⟨_, _, _, heq⟩ := p.handleVote_voted certStore sink k vote order now
  rw [heq]
  exact ⟨rfl, rfl⟩

theorem tryCreateHeader_identity (p : Primary) {κ : Type} (certStore : CS)
    (sink : CertSink κ CS) (k : κ) (hasAckQuorum : Hash → Bool) (order : IterOrder Vote)
    (now : Int) :
    (p.tryCreateHeader certStore sink k hasAckQuorum order now).2.1.validatorID =
        p.validatorID ∧
      (p.tryCreateHeader certStore sink k hasAckQuorum order now).2.1.validatorSet =
        p.validatorSet := by
  obtain ⟨_, _, hticked⟩ := p.tryCreateHeader_ticked certStore sink k hasAckQuorum order now
  obtain ⟨_, _, _, heq⟩ := hticked.voted
  dsimp only at heq
  rw [heq]
  exact ⟨rfl, rfl⟩

variable {vs : SimpleValidatorSet} {w : World CS}

omit [SliceSort] [CertificateStore CS] in
theorem Steady.set (h : w.Steady vs) {i : UInt16} {p : Primary}
    (hp : p.validatorID = (w.primary i).validatorID ∧
      p.validatorSet = (w.primary i).validatorSet) (certStore : CS) :
    (w.set i p certStore).Steady vs := by
  intro j
  by_cases hj : j = i
  · subst hj
    rw [primary_set_self, hp.1, hp.2]
    exact h j
  · rw [primary_set_ne w hj]
    exact h j

theorem step_steady (h : w.Steady vs) (e : WorldEvent) : (w.step e).1.Steady vs := by
  cases e with
  | tick i hasAckQuorum order now =>
    exact h.set (tryCreateHeader_identity _ _ _ _ _ _ _) _
  | header i header available => exact h
  | vote i vote order now => exact h.set (handleVote_identity _ _ _ _ _ _ _) _
  | certificate i cert =>
    refine h.set ?_ _
    obtain ⟨⟨currentRound, heq⟩, -⟩ :=
      (w.primary i).handleCertificate_eq (w.certStore i) cert
    rw [heq]
    exact ⟨rfl, rfl⟩
  | batch i digest => exact h.set (p := (w.primary i).addBatchDigest digest) ⟨rfl, rfl⟩ _
  | ack i batchDigest round => exact h
  | cleanup i now => exact h.set (p := (w.primary i).cleanupPendingVotes now) ⟨rfl, rfl⟩ _

omit [SliceSort] [CertificateStore CS] in
theorem started_steady (h : w.Started vs) : w.Steady vs := by
  intro i
  obtain ⟨signer, cfg, hp⟩ := h i
  rw [hp]
  exact ⟨rfl, rfl⟩

theorem step_signed (h : w.Steady vs) {e : WorldEvent} {s : Signed} (hs : s ∈ (w.step e).2) :
    (∃ i hasAckQuorum order now header, e = .tick i hasAckQuorum order now ∧
      s = .header i header ∧ header.author = i ∧
      header.round = (w.primary i).currentRound ∧ header.digest = header.computeDigest) ∨
    (∃ i header available, e = .header i header available ∧ s = .vote i header ∧
      vs.verifySignature header.author header.digest header.signature = true) ∨
    ∃ i batchDigest round, e = .ack i batchDigest round ∧ s = .ack i batchDigest round := by
  cases e with
  | tick i hasAckQuorum order now =>
    obtain ⟨header, hheader, rfl⟩ := List.mem_map.mp hs
    obtain ⟨rest, digests, hb⟩ :=
      Primary.tryCreateHeader_eq_some (Option.mem_toList.mp hheader)
    obtain ⟨sig, -, rfl⟩ := Primary.buildHeader_eq_some hb
    exact .inl ⟨i, hasAckQuorum, order, now, _, rfl, rfl, (h i).1, rfl, rfl⟩
  | header i header available =>
    unfold step at hs
    dsimp only at hs
    split at hs
    · next vote hvote =>
        have hsig := Primary.validateHeader_signed (Primary.handleHeader_eq_vote hvote)
        rw [(h i).2] at hsig
        exact .inr (.inl ⟨i, header, available, rfl, List.mem_singleton.mp hs, hsig⟩)
    · cases hs
  | ack i batchDigest round =>
    unfold step at hs
    dsimp only at hs
    split at hs
    · exact .inr (.inr ⟨i, batchDigest, round, rfl, List.mem_singleton.mp hs⟩)
    · cases hs
  | vote | certificate | batch | cleanup => exact absurd hs (by simp [step])

/-! ## What a signature proves

The log has what the keys of honest validators were used for; who is not honest may have signed
anything. -/

/-- An honest validator is handed only headers whose digest is that of their content. -/
def Genuine (honest : Finset UInt16) : WorldEvent → Prop
  | .header i h _ => i ∈ honest → h.digest = h.computeDigest
  | _ => True

instance (honest : Finset UInt16) (e : WorldEvent) : Decidable (Genuine honest e) :=
  match e with
  | .header i h _ => inferInstanceAs (Decidable (i ∈ honest → h.digest = h.computeDigest))
  | .tick .. | .vote .. | .certificate .. | .batch .. | .ack .. | .cleanup .. =>
    .isTrue trivial

/-- The digests that honest validators have signed are the hashes of what they stand
for. -/
def Bound (honest : Finset UInt16) (log : List Signed) : Prop :=
  ∀ s ∈ log, s.signer ∈ honest → s.digest = hashBytes s.bytes

theorem step_bound {honest : Finset UInt16} {log : List Signed} {e : WorldEvent}
    (hw : w.Steady vs) (hlog : Bound honest log) (he : Genuine honest e) :
    Bound honest (log ++ (w.step e).2) := by
  intro s hs hhonest
  rcases List.mem_append.mp hs with hold | hnew
  · exact hlog s hold hhonest
  · rcases step_signed hw hnew with
      ⟨i, _, _, _, header, rfl, rfl, -, -, hdigest⟩ | ⟨i, header, _, rfl, rfl, -⟩ |
      ⟨i, batchDigest, round, rfl, rfl⟩
    · exact hdigest
    · exact he hhonest
    · rfl

omit [CertificateStore CS] in
/-- A signature of an honest validator on the digest of a header is on a header with
the same bytes. -/
theorem about_of_signedBy {honest : Finset UInt16} {log : List Signed} {i : UInt16}
    {header : Header} (hlog : Bound honest log) (hi : i ∈ honest)
    (hheader : header.digest = header.computeDigest)
    (hcf : CollisionFree (header.encode :: log.map Signed.bytes))
    (hsigned : SignedBy log i header.digest) :
    ∃ s ∈ log, s.signer = i ∧ ∃ header', s.about = some header' ∧
      header'.digest = header.digest ∧ header.encode = header'.encode := by
  obtain ⟨s, hs, hsigner, hdigest⟩ := hsigned
  have hbytes : header.encode = s.bytes := by
    refine hcf _ List.mem_cons_self _ (List.mem_cons_of_mem _ (List.mem_map_of_mem hs)) ?_
    rw [← hlog s hs (by rw [hsigner]; exact hi), hdigest, hheader]
    rfl
  refine ⟨s, hs, hsigner, ?_⟩
  cases s with
  | header j header' => exact ⟨header', rfl, hdigest, hbytes⟩
  | vote j header' => exact ⟨header', rfl, hdigest, hbytes⟩
  | ack j batchDigest round =>
    -- Forty-two bytes are not the bytes of any header.
    have hlen := congrArg List.length hbytes
    rw [Header.length_encode] at hlen
    simp only [Signed.bytes, length_batchAckBytes] at hlen
    omega

end World

end DagMempool
