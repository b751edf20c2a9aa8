import DagMempool.Proofs.AckGate
import DagMempool.Proofs.RoundAdvance

/-!
# The parents of a header

A header of a later round refers to certificates of the round before. Who receives it
counts the references and looks each of them up; who makes it takes what its store lists
for the round before, in the order of the authors. Neither asks whether the references
are to different certificates, of different authors, or of which round, so that a vote
says as much about the past of a header as the header is honest. And nothing makes sure
that what was there when the round was entered is still there, or still enough, when the
header is made.
-/

namespace DagMempool

section

variable [Crypto] {CS : Type} [CertificateStore CS]

/-! ## Headers that are voted for

A vote is refused for what `HandleHeader` checks, and the past of a header is none of it:
references are counted and looked up. Where a vote is given, what the claim to a quorum of
parents comes down to is how many authors the certificates of the round before have, among
those that the references lead to, whatever else the header refers to and however often. -/

/-- What keeps a primary from voting for a header. -/
inductive Primary.Declines (p : Primary) (certStore : CS) (available : Bool) (header : Header) :
    Prop
  | stopped (h : p.running = false)
  | low (h : header.round < p.currentRound)
  | high (h : p.currentRound + p.cfg.maxRoundGap < header.round)
  | epoch (h : header.epoch ≠ p.epoch)
  | author (h : p.validatorSet.verifySignature header.author header.digest
      header.signature = false)
  | few (hround : 0 < header.round) (h : header.parents.length < p.validatorSet.quorum)
  | missing (hround : 0 < header.round) {parent : CertificateRef}
      (hmem : parent ∈ header.parents)
      (h : CertificateStore.hasCertificate certStore parent.digest = false)
  | unavailable (h : available = false)
  | unsigned {err : GoError} (h : p.signer.sign header.digest = .error err)

def Primary.VotesFor {φ : Type} (p : Primary) (certStore : CS)
    (request : φ → Header → Bool × φ) (fetcher : φ) (header : Header) : Prop :=
  ∃ vote, (p.handleHeader certStore request fetcher header).1 = .ok (some vote)

variable {φ : Type} {p : Primary} {certStore : CS} {request : φ → Header → Bool × φ}
  {fetcher : φ} {header : Header}

theorem Primary.VotesFor.checked (h : p.VotesFor certStore request fetcher header) :
    p.running = true ∧ p.validateHeader certStore header = .ok () ∧
      (request fetcher header).1 = true ∧ ∃ sig, p.signer.sign header.digest = .ok sig := by
  obtain ⟨vote, hvote⟩ := h
  have hvalid := handleHeader_eq_vote hvote
  unfold handleHeader at hvote
  rw [hvalid] at hvote
  split at hvote
  · cases hvote
  · next hrunning =>
      dsimp only at hvote
      split at hvote
      · cases hvote
      · next havailable =>
          split at hvote
          · cases hvote
          · next signed hsign =>
              obtain ⟨sig, hsig, -⟩ := Vote.sign_eq_ok hsign
              exact ⟨by simpa using hrunning, hvalid, by simpa using havailable, sig, hsig⟩

theorem Primary.Declines.not_votesFor (h : p.Declines certStore (request fetcher header).1 header) :
    ¬ p.VotesFor certStore request fetcher header := by
  intro hvotes
  obtain ⟨hrunning, hvalid, havailable, sig, hsig⟩ := hvotes.checked
  obtain ⟨hlow, hhigh, hepoch, -, hparents⟩ := validateHeader_eq_ok.mp hvalid
  cases h with
  | stopped h => exact absurd hrunning (by simp [h])
  | low h => exact absurd h (UInt64.not_lt.mpr hlow)
  | high h => exact absurd h (UInt64.not_lt.mpr hhigh)
  | epoch h => exact h hepoch
  | author h => exact absurd (validateHeader_signed hvalid) (by simp [h])
  | few hround h => exact absurd (hparents hround).1 (Nat.not_le.mpr h)
  | missing hround hmem h => exact absurd ((hparents hround).2 _ hmem) (by simp [h])
  | unavailable h => exact absurd havailable (by simp [h])
  | unsigned h => exact absurd hsig (by simp [h])

theorem Primary.declines_or_votesFor (p : Primary) (certStore : CS)
    (request : φ → Header → Bool × φ) (fetcher : φ) (header : Header) :
    p.Declines certStore (request fetcher header).1 header ∨
      p.VotesFor certStore request fetcher header := by
  by_contra hnot
  obtain ⟨hdeclines, hvotes⟩ := not_or.mp hnot
  have hrunning : p.running = true := eq_true_of_ne_false fun h => hdeclines (.stopped h)
  have hvalid : p.validateHeader certStore header = .ok () := by
    refine validateHeader_eq_ok.mpr ⟨UInt64.not_lt.mp fun h => hdeclines (.low h),
      UInt64.not_lt.mp fun h => hdeclines (.high h),
      Classical.not_not.mp fun h => hdeclines (.epoch h), ?_, fun hround => ?_⟩
    · refine SimpleValidatorSet.verifySignature_eq_true.mp ?_
      exact eq_true_of_ne_false fun h => hdeclines (.author h)
    · refine ⟨Nat.not_lt.mp fun h => hdeclines (.few hround h), fun parent hmem => ?_⟩
      exact eq_true_of_ne_false fun h => hdeclines (.missing hround hmem h)
  have havailable : (request fetcher header).1 = true :=
    eq_true_of_ne_false fun h => hdeclines (.unavailable h)
  cases hsign : p.signer.sign header.digest with
  | error err => exact hdeclines (.unsigned hsign)
  | ok sig =>
    refine hvotes ⟨({ Vote.new header.digest p.validatorID with signature := sig },
      header.author), ?_⟩
    simp [handleHeader, hrunning, hvalid, havailable, Vote.sign, Vote.new, hsign]

/-- The parents of a header name a quorum of stored certificates of the round before, all
different and of different authors. -/
def Primary.CausalPast (p : Primary) (certStore : CS) (header : Header) : Prop :=
  ∃ certs : List Certificate, p.validatorSet.quorum ≤ certs.length ∧
    (certs.map Certificate.digest).Nodup ∧ (certs.map Certificate.author).Nodup ∧
    ∀ c ∈ certs, CertificateStore.getCertificate certStore c.digest = .ok c ∧
      c.round = header.round - 1 ∧ ∃ ref ∈ header.parents, ref.digest = c.digest

def referenced (certStore : CS) (refs : List CertificateRef) : List Certificate :=
  refs.filterMap fun ref => (CertificateStore.getCertificate certStore ref.digest).toOption

/-- The authors of those that are of the round before. -/
def parentAuthors (certStore : CS) (header : Header) : Finset UInt16 :=
  (((referenced certStore header.parents).filter fun c => c.round = header.round - 1).map
    Certificate.author).toFinset

omit [Crypto] in
theorem mem_referenced {certStore : CS} {refs : List CertificateRef} {c : Certificate} :
    c ∈ referenced certStore refs ↔
      ∃ ref ∈ refs, CertificateStore.getCertificate certStore ref.digest = .ok c := by
  simp only [referenced, List.mem_filterMap, toOption_eq_some]

omit [Crypto] in
theorem mem_parentAuthors {a : UInt16} : a ∈ parentAuthors certStore header ↔
    ∃ c, (∃ ref ∈ header.parents, CertificateStore.getCertificate certStore ref.digest = .ok c) ∧
      c.round = header.round - 1 ∧ c.author = a := by
  simp only [parentAuthors, List.mem_toFinset, List.mem_map, List.mem_filter, mem_referenced,
    decide_eq_true_iff, and_assoc]

theorem causalPast_iff [TalliesRounds CS] (hs : TalliesRounds.sound certStore)
    (hall : ∀ ref ∈ header.parents,
      CertificateStore.hasCertificate certStore ref.digest = true) :
    p.CausalPast certStore header ↔
      p.validatorSet.quorum ≤ (parentAuthors certStore header).card := by
  -- A certificate is stored under its own digest.
  have hkeyed : ∀ ref ∈ header.parents, ∀ c,
      CertificateStore.getCertificate certStore ref.digest = .ok c → ref.digest = c.digest := by
    intro ref href c hget
    obtain ⟨c', hget', hd⟩ := TalliesRounds.has_get hs (hall ref href)
    rw [hget] at hget'
    rw [Except.ok.inj hget', hd]
  constructor
  · rintro ⟨certs, hquorum, -, hauthors, hcerts⟩
    refine Nat.le_trans hquorum ?_
    rw [← List.length_map (f := Certificate.author), ← List.toFinset_card_of_nodup hauthors]
    refine Finset.card_le_card fun a ha => ?_
    obtain ⟨c, hc, rfl⟩ := List.mem_map.mp (List.mem_toFinset.mp ha)
    obtain ⟨hget, hround, ref, href, hd⟩ := hcerts c hc
    exact mem_parentAuthors.mpr ⟨c, ⟨ref, href, hd ▸ hget⟩, hround, rfl⟩
  · intro hquorum
    -- One certificate for each author.
    choose cert hcert using fun a : {a // a ∈ parentAuthors certStore header} =>
      mem_parentAuthors.mp a.2
    have hget : ∀ a, CertificateStore.getCertificate certStore (cert a).digest = .ok (cert a) ∧
        ∃ ref ∈ header.parents, ref.digest = (cert a).digest := by
      intro a
      obtain ⟨⟨ref, href, hget⟩, -⟩ := hcert a
      have hd := hkeyed ref href _ hget
      exact ⟨hd ▸ hget, ref, href, hd⟩
    have hinj : ∀ a b, (cert a).digest = (cert b).digest → a = b := by
      intro a b hd
      have hsame := (hget a).1
      rw [hd, (hget b).1] at hsame
      rw [Subtype.ext_iff, ← (hcert a).2.2, ← (hcert b).2.2, Except.ok.inj hsame]
    have hnodup := (parentAuthors certStore header).attach.nodup_toList
    refine ⟨(parentAuthors certStore header).attach.toList.map cert, ?_, ?_, ?_, ?_⟩
    · rwa [List.length_map, Finset.length_toList, Finset.card_attach]
    · rw [List.map_map]
      exact hnodup.map fun a b => hinj a b
    · rw [List.map_map]
      refine hnodup.map fun a b hauthor => Subtype.ext ?_
      rw [← (hcert a).2.2, ← (hcert b).2.2]
      exact hauthor
    · intro c hc
      obtain ⟨a, -, rfl⟩ := List.mem_map.mp hc
      exact ⟨(hget a).1, (hcert a).2.1, (hget a).2⟩

/-- A vote says that a header has a quorum of certificates behind it for exactly those
headers that are declined or whose references lead to certificates of a quorum of authors
in the round before. -/
theorem voted_causal_past [TalliesRounds CS] (hs : TalliesRounds.sound certStore)
    (hround : 0 < header.round) :
    (p.VotesFor certStore request fetcher header → p.CausalPast certStore header) ↔
      p.Declines certStore (request fetcher header).1 header ∨
        p.validatorSet.quorum ≤ (parentAuthors certStore header).card := by
  have hpast : p.VotesFor certStore request fetcher header → (p.CausalPast certStore header ↔
      p.validatorSet.quorum ≤ (parentAuthors certStore header).card) := by
    intro hvotes
    obtain ⟨-, hvalid, -⟩ := hvotes.checked
    obtain ⟨-, -, -, -, hparents⟩ := Primary.validateHeader_eq_ok.mp hvalid
    exact causalPast_iff hs (hparents hround).2
  constructor
  · intro h
    rcases p.declines_or_votesFor certStore request fetcher header with hdeclines | hvotes
    · exact .inl hdeclines
    · exact .inr ((hpast hvotes).mp (h hvotes))
  · rintro (hdeclines | hquorum) hvotes
    · exact absurd hvotes hdeclines.not_votesFor
    · exact (hpast hvotes).mpr hquorum

end

section

open IdealScheme

/-- A primary that was given some certificates votes for a header, its batches being
there. -/
def Votes (certs : List Certificate) (header : Header) : Prop :=
  ((delivered certs).primary.handleHeader (delivered certs).certStore (fun _ _ => (true, ())) ()
    header).1 = .ok (some (idealVote header.digest 0, header.author))
deriving Decidable

def headerOver (round : UInt64) (parents : List Certificate) : Header :=
  idealHeader 2 round [] (parents.map (·.getRef)) 0

/-- A header that names one of its parents twice. -/
theorem voted_causal_past_ideal :
    Votes (votedRound 0) (headerOver 1 (votedCertificate 1 0 [] [] :: votedRound 0)) ∧
      (delivered (votedRound 0)).primary.CausalPast (delivered (votedRound 0)).certStore
        (headerOver 1 (votedCertificate 1 0 [] [] :: votedRound 0)) := by
  have hvote : Votes (votedRound 0)
      (headerOver 1 (votedCertificate 1 0 [] [] :: votedRound 0)) := by decide +kernel
  exact ⟨hvote, (voted_causal_past (delivered_sound _) (by decide)).mpr
    (.inr (by decide +kernel)) ⟨_, hvote⟩⟩

/-- Certificates of one author, and of three, all of round `0`. -/
def mixedRound : List Certificate := onesidedRound ++ votedRound 0

theorem not_causalPast {p : Primary} {certStore : MemoryCertificateStore} {header : Header}
    {a : UInt16} (hquorum : 1 < p.validatorSet.quorum)
    (hall : ∀ c ∈ referenced certStore header.parents, c.round = header.round - 1 → c.author = a) :
    ¬ p.CausalPast certStore header := by
  intro ⟨certs, hlen, _, hauthors, hcerts⟩
  have hle := length_le_one_of_author hauthors fun c hc => by
    obtain ⟨hget, hround, ref, href, hd⟩ := hcerts c hc
    exact hall c (mem_referenced.mpr ⟨ref, href, hd ▸ hget⟩) hround
  omega

/-- One parent three times, three parents of one author, parents of an earlier round: the
primary votes for all three headers. -/
theorem voted_without_causal_past :
    (Votes mixedRound (headerOver 1 (List.replicate 3 (votedCertificate 1 0 [] []))) ∧
      ¬ (delivered mixedRound).primary.CausalPast (delivered mixedRound).certStore
        (headerOver 1 (List.replicate 3 (votedCertificate 1 0 [] [])))) ∧
    (Votes mixedRound (headerOver 1 onesidedRound) ∧
      ¬ (delivered mixedRound).primary.CausalPast (delivered mixedRound).certStore
        (headerOver 1 onesidedRound)) ∧
    (Votes mixedRound (headerOver 2 (votedRound 0)) ∧
      ¬ (delivered mixedRound).primary.CausalPast (delivered mixedRound).certStore
        (headerOver 2 (votedRound 0))) := by
  have hquorum : 1 < (delivered mixedRound).primary.validatorSet.quorum := by decide +kernel
  refine ⟨⟨by decide +kernel, ?_⟩, ⟨by decide +kernel, ?_⟩, ⟨by decide +kernel, ?_⟩⟩
  · exact not_causalPast (a := 1) hquorum (by decide +kernel)
  · exact not_causalPast (a := 1) hquorum (by decide +kernel)
  · exact not_causalPast (a := 1) hquorum (by decide +kernel)

end

/-! ## The rounds of a node

The round goes up only with a quorum of certificates in the round it leaves. Every handler of a
node is some such work on the rounds, with the certificates it saves. -/

section

open Looseberry

variable {CS : Type} [CertificateStore CS]

theorem Written.roundWork {P : Certificate → Prop} {s s' : CertState CS} (h : Written P s s')
    (quorum : Nat) (r : UInt64) :
    ∃ certs, RoundWork quorum r s.certStore certs r s'.certStore := by
  refine h.certStore_invariant (I := fun certStore =>
    ∃ certs, RoundWork quorum r s.certStore certs r certStore) ?_ ⟨∅, .refl _ _⟩
  rintro certStore c - ⟨certs, hwork⟩
  exact ⟨_, hwork.save c⟩

theorem onCertificateFormed_records :
    (onCertificateFormed : CertSink Formed CS).Records Formed.certs where
  saves k s c := by
    show (k.dag.addCertificate s c).2.2 = s ∨
      (k.dag.addCertificate s c).2.2 = (CertificateStore.saveCertificate s c).2
    rcases k.dag.addCertificate_cases s c with ⟨err, heq, -⟩ | ⟨-, heq⟩
    · rw [heq]
      exact .inl rfl
    · rw [heq]
      exact .inr rfl
  logs _ _ _ := rfl

end

namespace Looseberry

variable [Crypto] {BS CS TI : Type} [CertificateStore CS]

def Works (l l' : Looseberry BS CS TI) : Prop :=
  ∃ certs, l.primary.Works l.certStore certs l'.primary l'.certStore

theorem handleCertificateMessage_works (l : Looseberry BS CS TI) (env : Env)
    (cert : Certificate) : l.Works (l.handleCertificateMessage env cert) := by
  have hprimary := l.primary.handleCertificate_works l.certStore cert
  -- What follows the primary writes certificates and leaves the round alone.
  let start : CertState CS :=
    { l.certState with certStore := (l.primary.handleCertificate l.certStore cert).2.2 }
  have hadmitted : Replayed (fun _ => True) start (l.admitCertificate cert).2 :=
    ⟨fun _ _ => trivial, .add (.refl start) (c := cert) trivial⟩
  have hsettled : Replayed (fun _ => True) start
      ((l.admitCertificate cert).2.settleOrphans env cert (l.admitCertificate cert).1) :=
    settleOrphans_replayed hadmitted trivial env _
  obtain ⟨certs, hwork⟩ := (hsettled.written.round cert.round).roundWork
    l.primary.validatorSet.quorum (l.primary.handleCertificate l.certStore cert).2.1.currentRound
  obtain ⟨_, _, _, _, heq⟩ := l.handleCertificateMessage_eq env cert
  have hsame : (l.handleCertificateMessage env cert).primary =
      (l.primary.handleCertificate l.certStore cert).2.1 := by rw [heq]
  rw [Works, hsame]
  exact ⟨_, hprimary.validatorSet, hprimary.work.trans hwork⟩

variable [SliceSort] [BatchStore BS] [TxIndex TI]

theorem step_works (l : Looseberry BS CS TI) {ev : Event × Env}
    (hcollect : l.collecting ev.1 = none) (hvs : ∀ vs, ev.1 ≠ .updateValidatorSet vs) :
    l.Works (l.step ev).1 := by
  cases hquiet : quiet ev.1 with
  | true =>
    obtain ⟨-, -, ⟨batchDigests, hprimary⟩, -, -, hstore, -⟩ := l.step_alike ev hquiet
    rw [Works, hprimary, hstore]
    exact ⟨∅, rfl, .refl _ _⟩
  | false =>
    obtain ⟨ev, env⟩ := ev
    have hstart : Primary.Worked Formed.certs l.primary l.certStore l.primary l.certStore
        { dag := l.dag, flow := l.flow, certs := [] } := .start _ _ rfl
    cases ev with
    | notifyCommitted | gcTick => exact absurd hcollect (by simp [collecting])
    | updateValidatorSet vs => exact absurd rfl (hvs vs)
    | voteCleanupTick => exact ⟨∅, rfl, .refl _ _⟩
    | certificateMessage cert => exact l.handleCertificateMessage_works env cert
    | syncResponse resp sender =>
      have hfold : ∀ (certs : List Certificate) (m : Looseberry BS CS TI), l.Works m →
          l.Works (certs.foldl (fun l cert => l.handleCertificateMessage env cert) m) := by
        intro certs
        induction certs with
        | nil => exact fun m hm => hm
        | cons cert certs ih =>
          rintro m ⟨_, hm⟩
          obtain ⟨_, hcert⟩ := m.handleCertificateMessage_works env cert
          exact ih _ ⟨_, hm.trans hcert⟩
      exact hfold _ _ ⟨∅, .refl _ _⟩
    | voteMessage vote =>
      exact ⟨_, hstart.handleVote onCertificateFormed_records vote env.votes env.now⟩
    | headerTick =>
      exact ⟨_, hstart.tryCreateHeader onCertificateFormed_records l.pool.hasBatchAckQuorum
        env.votes env.now⟩
    | _ => exact absurd hquiet (by simp [quiet])

end Looseberry

namespace Primary

variable [Crypto] [SliceSort] {CS : Type} [CertificateStore CS]

theorem Grounded.selectParents_spec [TalliesRounds CS] {p : Primary} {certStore : CS}
    (h : p.Grounded certStore) (hround : p.currentRound ≠ 0)
    (hauthors : ((listedCertificates certStore (p.currentRound - 1)).map
      Certificate.author).Nodup) :
    ∃ certs : List Certificate,
      p.selectParents certStore p.currentRound = certs.map (·.getRef) ∧
      certs.length = p.validatorSet.quorum ∧
      (∀ c ∈ certs, CertificateStore.getCertificate certStore c.digest = .ok c ∧
        c.round = p.currentRound - 1) ∧
      (certs.map Certificate.author).Pairwise (· < ·) := by
  let listed := listedCertificates certStore (p.currentRound - 1)
  let sorted := SliceSort.sortSlice (fun a b => decide (a.author.toNat < b.author.toNat)) listed
  have hperm : sorted.Perm listed := SliceSort.perm _ _
  -- Sorted by authors that are all different is strictly ascending.
  have hsorted : sorted.Pairwise fun a b => a.author < b.author := by
    have hle := SliceSort.sorted_key (fun c : Certificate => c.author.toNat) listed
    have hne : sorted.Pairwise fun a b => a.author ≠ b.author :=
      List.pairwise_map.mp ((hperm.map _).nodup_iff.mpr hauthors)
    refine hle.imp₂ (fun a b hle hne => ?_) hne
    rw [UInt16.lt_iff_toNat_lt]
    exact Nat.lt_of_le_of_ne hle fun heq => hne (UInt16.toNat_inj.mp heq)
  refine ⟨sorted.take p.validatorSet.quorum, selectParents_eq h.sound hround, ?_,
    fun c hc => ?_, ?_⟩
  · rw [List.length_take, hperm.length_eq]
    exact Nat.min_eq_left (h.parents.resolve_left hround)
  · exact TalliesRounds.stored h.sound (hperm.mem_iff.mp (List.mem_of_mem_take hc))
  · rw [List.pairwise_map]
    exact hsorted.sublist (List.take_sublist _ _)

/-- A header that is built is accepted by whoever has the validators, the epoch and the
parents, if the parents are a quorum and the validators have the primary's key. -/
theorem validateHeader_buildHeader {p : Primary} {certStore : CS} {digests : List BatchDigest}
    {now : Int} {header : Header} (h : p.buildHeader certStore digests now = some header)
    (hquorum : p.validatorSet.quorum ≤ header.parents.length)
    (hkey : (p.validatorSet.getByIndex p.validatorID).map (·.publicKey) =
      some p.signer.publicKey)
    {CS' : Type} [CertificateStore CS'] {peer : Primary} {peerStore : CS'}
    (hvs : peer.validatorSet = p.validatorSet) (hepoch : peer.epoch = p.epoch)
    (hlow : peer.currentRound ≤ header.round)
    (hhigh : header.round ≤ peer.currentRound + peer.cfg.maxRoundGap)
    (hparents : ∀ ref ∈ header.parents,
      CertificateStore.hasCertificate peerStore ref.digest = true) :
    peer.validateHeader peerStore header = .ok () := by
  obtain ⟨sig, hsign, rfl⟩ := buildHeader_eq_some h
  obtain ⟨author, hauthor, hpk⟩ := Option.map_eq_some_iff.mp hkey
  refine validateHeader_eq_ok.mpr ⟨hlow, hhigh, hepoch.symm, ⟨author, ?_, ?_⟩, fun _ => ?_⟩
  · rw [hvs]
    exact hauthor
  · rw [hpk]
    exact p.signer.verify_sign hsign
  · rw [hvs]
    exact ⟨hquorum, hparents⟩

end Primary

namespace Looseberry

variable [Crypto] [SliceSort] {BS CS TI : Type}
variable [BatchStore BS] [CertificateStore CS] [TxIndex TI]

/-! ## Headers that are broadcast

A header is made of what the store lists then. What was a quorum when the round was entered still
is one if nothing was taken from the store and the validators are the same. -/

/-- What a header of a later round has to be like for the peers of a node. -/
structure Acceptable (l : Looseberry BS CS TI) (header : Header) : Prop where
  quorum : l.primary.validatorSet.quorum ≤ header.parents.length
  parents : ∃ certs : List Certificate, header.parents = certs.map (·.getRef) ∧
    (∀ c ∈ certs, CertificateStore.getCertificate l.certStore c.digest = .ok c ∧
      c.round = header.round - 1) ∧
    (certs.map Certificate.author).Pairwise (· < ·)
  accepted : ∀ {CS' : Type} [CertificateStore CS'] (peer : Primary) (peerStore : CS'),
    peer.validatorSet = l.primary.validatorSet → peer.epoch = l.primary.epoch →
    peer.currentRound ≤ header.round →
    header.round ≤ peer.currentRound + peer.cfg.maxRoundGap →
    (∀ ref ∈ header.parents, CertificateStore.hasCertificate peerStore ref.digest = true) →
    peer.validateHeader peerStore header = .ok ()

/-- The certificates of the round before, a quorum of them, are not lost to a collection
and are enough for new validators; and when a header is made, they are of different
authors, and the validators have the node among them. -/
def KeepsParents (l : Looseberry BS CS TI) (ev : Event) : Prop :=
  match l.collecting ev with
  | some m => l.primary.currentRound = 0 ∨ m.gc.calculateGCRound < l.primary.currentRound
  | none =>
    match ev with
    | .updateValidatorSet vs =>
      l.primary.currentRound = 0 ∨
        vs.quorum ≤ (listedCertificates l.certStore (l.primary.currentRound - 1)).length
    | .headerTick =>
      ((listedCertificates l.certStore (l.primary.currentRound - 1)).map
        Certificate.author).Nodup ∧
      (l.primary.validatorSet.getByIndex l.primary.validatorID).map (·.publicKey) =
        some l.primary.signer.publicKey
    | _ => True

omit [SliceSort] [BatchStore BS] [TxIndex TI] in
theorem grounded_of_collected [TalliesRounds CS] {p : Primary} {certStore certStore' : CS}
    (h : p.Grounded certStore) {round : UInt64}
    (hround : p.currentRound = 0 ∨ round < p.currentRound)
    (hstore : certStore' = certStore ∨
      certStore' = (CertificateStore.deleteCertificatesBefore certStore round).2) :
    p.Grounded certStore' := by
  rcases hstore with rfl | rfl
  · exact h
  · refine ⟨TalliesRounds.sound_delete _ h.sound, ?_⟩
    rcases hround with hzero | hlt
    · exact .inl hzero
    · have hle : round ≤ p.currentRound - 1 := by
        rw [UInt64.le_iff_toNat_le]
        rw [UInt64.lt_iff_toNat_lt] at hlt
        rw [UInt64.toNat_sub_of_le _ _ (by rw [UInt64.le_iff_toNat_le]; simp; omega)]
        simp
        omega
      exact h.parents.imp_right fun hquorum =>
        Nat.le_trans hquorum (TalliesRounds.length_le_delete h.sound hle)

theorem step_grounded [TalliesRounds CS] {l : Looseberry BS CS TI}
    (h : l.primary.Grounded l.certStore) {ev : Event × Env} (hev : l.KeepsParents ev.1) :
    (l.step ev).1.primary.Grounded (l.step ev).1.certStore := by
  unfold KeepsParents at hev
  cases hcollect : l.collecting ev.1 with
  | some m =>
    rw [hcollect] at hev
    obtain ⟨_, _, heq⟩ := step_of_collecting hcollect
    obtain ⟨dag, gc, flow, rfl⟩ := collecting_eq hcollect
    rw [heq]
    exact grounded_of_collected h hev (gcTick_certStore { l with dag, gc, flow } ev.2)
  | none =>
    rcases validators_cases ev with ⟨vs, env, rfl⟩ | hvs
    · exact ⟨h.sound, hev⟩
    · obtain ⟨certs, hworks⟩ := l.step_works hcollect hvs
      exact hworks.grounded h

omit [BatchStore BS] [TxIndex TI] in
theorem headerTick_acceptable [TalliesRounds CS] {l : Looseberry BS CS TI}
    (h : l.primary.Grounded l.certStore) {env : Env} (hev : l.KeepsParents .headerTick)
    {header : Header}
    (hheader : .broadcastHeader header ∈ (l.headerTick env).2) (hround : 0 < header.round) :
    l.Acceptable header := by
  obtain ⟨hauthors, hkey⟩ := hev
  obtain ⟨rest, digests, hbuilt⟩ := Primary.tryCreateHeader_eq_some (mem_headerTick.mp hheader)
  obtain ⟨sig, -, heq⟩ := Primary.buildHeader_eq_some hbuilt
  have hr : header.round = l.primary.currentRound := by rw [heq]; rfl
  have hne : l.primary.currentRound ≠ 0 := by
    rw [← hr]
    exact (UInt64.pos_iff_ne_zero).mp hround
  have hquorum := h.parents.resolve_left hne
  obtain ⟨certs, hselect, hlen, hcerts, hascending⟩ := h.selectParents_spec hne hauthors
  have hparents : header.parents = certs.map (·.getRef) := by
    rw [heq, ← hselect]
    rfl
  have hcount : l.primary.validatorSet.quorum ≤ header.parents.length := by
    rw [hparents, List.length_map, hlen]
  refine ⟨hcount, ⟨certs, hparents, ?_, hascending⟩, ?_⟩
  · rw [hr]
    exact hcerts
  · intro CS' _ peer peerStore hvs hepoch hlow hhigh hstored
    exact Primary.validateHeader_buildHeader hbuilt hcount hkey hvs hepoch hlow hhigh hstored

/-- In every run whose collections, new validators and ticks keep the parents of the
current round, every header of a later round that is broadcast is acceptable. -/
theorem broadcast_headers_acceptable [TalliesRounds CS] {l : Looseberry BS CS TI}
    {log : List Output}
    (h : Reach (fun l => TalliesRounds.sound l.certStore) (fun l _ ev => l.KeepsParents ev.1)
      l log)
    {env : Env} (hev : l.KeepsParents .headerTick) {header : Header}
    (hheader : .broadcastHeader header ∈ (l.step (.headerTick, env)).2)
    (hround : 0 < header.round) : l.Acceptable header := by
  have hgrounded : l.primary.Grounded l.certStore := by
    refine h.invariant (I := fun l _ => l.primary.Grounded l.certStore) (fun l hl => ?_)
      fun l _ ev hl hok => step_grounded hl hok
    obtain ⟨⟨cfg, vs, batchStore, certStore, txIndex, now, rfl⟩, hs⟩ := hl
    exact ⟨hs, .inl rfl⟩
  exact headerTick_acceptable hgrounded hev hheader hround

end Looseberry

section

open IdealScheme

/-- What an ideal node broadcasts on a header tick after some events. -/
def tickHeader (events : List Event) : Option Header :=
  let l := (idealExec 0 1 events).1
  (l.primary.tryCreateHeader l.certStore Looseberry.onCertificateFormed
    { dag := l.dag, flow := l.flow, certs := [] } l.pool.hasBatchAckQuorum .listed 19).1

theorem broadcast_tickHeader {events : List Event} {header : Header}
    (h : tickHeader events = some header) : .broadcastHeader header ∈
      ((idealExec 0 1 events).1.step (.headerTick, idealEnv 19)).2 :=
  Looseberry.mem_headerTick.mpr h

/-- The certificates of round `0` arrive, what is committed leaves them, and the
validators are set again to what they were. -/
def parentsKept : List Event :=
  (votedRound 0).map .certificateMessage ++
    [.notifyCommitted 1, .updateValidatorSet (idealValidators 4 0)]

theorem broadcast_headers_acceptable_ideal :
    ∃ header, .broadcastHeader header ∈
        ((idealExec 0 1 parentsKept).1.step (.headerTick, idealEnv 19)).2 ∧
      header.round = 1 ∧ (idealExec 0 1 parentsKept).1.Acceptable header := by
  have hrun : Looseberry.Reach (fun l => TalliesRounds.sound l.certStore)
      (fun l _ ev => l.KeepsParents ev.1) (idealExec 0 1 parentsKept).1
      (idealExec 0 1 parentsKept).2 :=
    reach_idealExec 0 1 parentsKept MemoryCertificateStore.sound_new
      ⟨trivial, trivial, trivial, .inr (by decide +kernel), .inr (by decide +kernel), trivial⟩
  have htick : (tickHeader parentsKept).map (·.round) = some 1 := by decide +kernel
  obtain ⟨header, hheader, hround⟩ := Option.map_eq_some_iff.mp htick
  have hkeeps : (idealExec 0 1 parentsKept).1.KeepsParents .headerTick :=
    ⟨by decide +kernel, by decide +kernel⟩
  refine ⟨header, broadcast_tickHeader hheader, hround, ?_⟩
  exact Looseberry.broadcast_headers_acceptable hrun hkeeps (broadcast_tickHeader hheader)
    (by rw [hround]; decide)

/-- The certificates of round `0` arrive, and then there are seven validators. -/
def parentsOutvoted : List Event :=
  (votedRound 0).map .certificateMessage ++ [.updateValidatorSet (idealValidators 7 0)]

/-- A batch is acknowledged, the certificates of round `0` arrive, and the others have
committed round `2`. -/
def parentsCollected : List Event :=
  ackedRun ++ (votedRound 0).map .certificateMessage ++ [.notifyCommitted 2]

/-- Three certificates of one author arrive. -/
def parentsOnesided : List Event := onesidedRound.map .certificateMessage

/-- New validators and a collection leave too few parents, and parents of one author are
taken for a quorum: the header is broadcast all the same. -/
theorem broadcast_header_unacceptable :
    (∀ events ∈ [parentsOutvoted, parentsCollected], ∃ header,
      .broadcastHeader header ∈ ((idealExec 0 1 events).1.step (.headerTick, idealEnv 19)).2 ∧
      header.round = 1 ∧
      header.parents.length < (idealExec 0 1 events).1.primary.validatorSet.quorum ∧
      ∀ (peer : Primary) (peerStore : MemoryCertificateStore),
        peer.validatorSet = (idealExec 0 1 events).1.primary.validatorSet →
        peer.validateHeader peerStore header ≠ .ok ()) ∧
    ∃ header, .broadcastHeader header ∈
        ((idealExec 0 1 parentsOnesided).1.step (.headerTick, idealEnv 19)).2 ∧
      header.round = 1 ∧ ¬ (idealExec 0 1 parentsOnesided).1.Acceptable header := by
  refine ⟨fun events hevents => ?_, ?_⟩
  · have htick : ((tickHeader events).map fun header => (header.round, decide
        (header.parents.length < (idealExec 0 1 events).1.primary.validatorSet.quorum))) =
        some (1, true) := by
      rcases List.mem_pair.mp hevents with rfl | rfl
      · decide +kernel
      · decide +kernel
    obtain ⟨header, hheader, heq⟩ := Option.map_eq_some_iff.mp htick
    obtain ⟨hround, hfew⟩ := Prod.mk.inj heq
    have hfew := of_decide_eq_true hfew
    refine ⟨header, broadcast_tickHeader hheader, hround, hfew, fun peer peerStore hvs hok => ?_⟩
    obtain ⟨-, -, -, -, hparents⟩ := Primary.validateHeader_eq_ok.mp hok
    have hquorum := (hparents (by rw [hround]; decide)).1
    rw [hvs] at hquorum
    omega
  · have htick : (tickHeader parentsOnesided).map (·.round) = some 1 := by decide +kernel
    obtain ⟨header, hheader, hround⟩ := Option.map_eq_some_iff.mp htick
    refine ⟨header, broadcast_tickHeader hheader, hround, fun hacceptable => ?_⟩
    obtain ⟨certs, hparents, hcerts, hauthors⟩ := hacceptable.parents
    have hvalues : ((idealExec 0 1 parentsOnesided).1.certStore.index.items.values.all
      fun c => c.author == 1) = true := by decide +kernel
    have hquorum : (idealExec 0 1 parentsOnesided).1.primary.validatorSet.quorum = 3 := by
      decide +kernel
    have hle := length_le_one_of_author (a := 1) (hauthors.imp UInt16.ne_of_lt) fun c hc => by
      obtain ⟨-, hget⟩ := MemoryCertificateStore.getCertificate_eq_ok.mp (hcerts c hc).1
      exact beq_iff_eq.mp (List.all_eq_true.mp hvalues c (GoMap.mem_values.mpr ⟨_, hget⟩))
    have hlen := hacceptable.quorum
    rw [hquorum, hparents, List.length_map] at hlen
    omega

end

end DagMempool
