import DagMempool.Primary.Ideal
import DagMempool.Proofs.PrimaryRule
import DagMempool.Store.Ideal
import DagMempool.Store.LevelDBCertificate

/-!
# How the round advances

Whatever is asked of a primary, what becomes of its round and of the certificate store
is a sequence of two things: a certificate is saved, or the round the primary is in has
a quorum of certificates in the store and the primary goes on to the next. `RoundWork`
is such a sequence, and every step of a primary other than a restart is one.

Two questions are answered from it. A round that was left had a quorum of certificates,
and still has; how many authors that is depends on what the store counts. And a primary
that got the certificates of a later round first is left behind the first round without a
quorum, because it goes on by one round at a time and only when certain things happen. It
keeps up if that round is never moved by more than one at once, and only by certificates
that are delivered.
-/

namespace DagMempool

open PrimaryMark (certifiedCertificates)

inductive RoundWork {CS : Type} [CertificateStore CS] (quorum : Nat) :
    UInt64 → CS → Set Certificate → UInt64 → CS → Prop
  | refl (r : UInt64) (s : CS) : RoundWork quorum r s ∅ r s
  | save {r r' : UInt64} {s s' : CS} {certs : Set Certificate}
      (h : RoundWork quorum r s certs r' s') (c : Certificate) :
      RoundWork quorum r s (insert c certs) r' (CertificateStore.saveCertificate s' c).2
  | advance {r r' : UInt64} {s s' : CS} {certs : Set Certificate} {listed : List Certificate}
      (h : RoundWork quorum r s certs r' s')
      (hlisted : CertificateStore.getCertificatesByRound s' r' = .ok listed)
      (hquorum : quorum ≤ listed.length) : RoundWork quorum r s certs (r' + 1) s'

open TalliesRounds

namespace RoundWork

variable {CS : Type} [CertificateStore CS] {quorum : Nat} {r r' r'' : UInt64} {s s' s'' : CS}
variable {certs certs' : Set Certificate}

theorem trans (h : RoundWork quorum r s certs r' s') (h' : RoundWork quorum r' s' certs' r'' s'') :
    RoundWork quorum r s (certs ∪ certs') r'' s'' := by
  induction h' with
  | refl => rwa [Set.union_empty]
  | save _ c ih =>
    rw [Set.union_insert]
    exact .save (ih h) c
  | advance _ hlisted hquorum ih => exact .advance (ih h) hlisted hquorum

theorem congr (h : RoundWork quorum r s certs r' s') (hcerts : ∀ c, c ∈ certs ↔ c ∈ certs') :
    RoundWork quorum r s certs' r' s' :=
  Set.ext hcerts ▸ h

variable [TalliesRounds CS]

theorem sound (h : RoundWork quorum r s certs r' s') (hs : sound s) : sound s' := by
  induction h with
  | refl => exact hs
  | save _ c ih => exact sound_save c (ih hs)
  | advance _ _ _ ih => exact ih hs

theorem passed (h : RoundWork quorum r s certs r' s') (hs : TalliesRounds.sound s) :
    ∃ n : Nat, r' = r + UInt64.ofNat n ∧
      ∀ i < n, quorum ≤ (listedCertificates s' (r + UInt64.ofNat i)).length := by
  induction h with
  | refl => exact ⟨0, by simp, by simp⟩
  | save h c ih =>
    obtain ⟨n, hn, hpassed⟩ := ih hs
    exact ⟨n, hn, fun i hi => Nat.le_trans (hpassed i hi) (length_le_save (h.sound hs) c)⟩
  | advance _ hlisted hquorum ih =>
    obtain ⟨n, hn, hpassed⟩ := ih hs
    refine ⟨n + 1, ?_, fun i hi => ?_⟩
    · rw [hn, UInt64.ofNat_add, UInt64.add_assoc]
      rfl
    · rcases Nat.lt_succ_iff_lt_or_eq.mp hi with hi | rfl
      · exact hpassed i hi
      · rw [← hn, listedCertificates_of_ok hlisted]
        exact hquorum

theorem length_le (h : RoundWork quorum r s certs r' s') (hs : TalliesRounds.sound s)
    (round : UInt64) :
    (listedCertificates s round).length ≤ (listedCertificates s' round).length := by
  induction h with
  | refl => exact Nat.le_refl _
  | save h c ih => exact Nat.le_trans (ih hs) (length_le_save (h.sound hs) c)
  | advance _ _ _ ih => exact ih hs

theorem grounded (h : RoundWork quorum r s certs r' s') (hs : TalliesRounds.sound s)
    (hr : r = 0 ∨ quorum ≤ (listedCertificates s (r - 1)).length) :
    r' = 0 ∨ quorum ≤ (listedCertificates s' (r' - 1)).length := by
  induction h with
  | refl => exact hr
  | save h c ih =>
    exact (ih hs hr).imp_right fun hle => Nat.le_trans hle (length_le_save (h.sound hs) c)
  | advance _ hlisted hquorum _ =>
    right
    rw [UInt64.add_sub_cancel, listedCertificates_of_ok hlisted]
    exact hquorum

theorem has_iff (h : RoundWork quorum r s certs r' s') (hs : TalliesRounds.sound s) (d : Hash) :
    CertificateStore.hasCertificate s' d = true ↔
      CertificateStore.hasCertificate s d = true ∨ ∃ c ∈ certs, c.digest = d := by
  induction h with
  | refl => simp
  | save h c ih =>
    rw [has_save (h.sound hs), ih hs, Set.exists_mem_insert, or_assoc]
    exact or_congr_right (or_comm.trans (or_congr_left eq_comm))
  | advance _ _ _ ih => exact ih hs

/-- The keys listed for a round are those listed before and those of the certificates
saved, if no two certificates of one digest differ in what counts. -/
theorem mem_keys (h : RoundWork quorum r s certs r' s') (hs : TalliesRounds.sound s)
    (hagree : ∀ c ∈ certs, ∀ c' ∈ certs, c.digest = c'.digest →
      c.round = c'.round ∧ key (S := CS) c = key c')
    (hheld : ∀ c ∈ certs, CertificateStore.hasCertificate s c.digest = true →
      key c ∈ (listedCertificates s c.round).map (key (S := CS)))
    (round : UInt64) (k : Key CS) :
    k ∈ (listedCertificates s' round).map key ↔
      k ∈ (listedCertificates s round).map key ∨ ∃ c ∈ certs, c.round = round ∧ key c = k := by
  induction h with
  | refl => simp
  | advance _ _ _ ih => exact ih hs hagree hheld
  | save h c ih =>
    rename_i s' certs
    have hold : ∀ {c'}, c' ∈ certs → c' ∈ insert c certs := Set.mem_insert_of_mem c
    have hnew : c ∈ insert c certs := Set.mem_insert c certs
    have ih := ih hs (fun c hc c' hc' => hagree c (hold hc) c' (hold hc'))
      (fun c hc => hheld c (hold hc))
    rw [mem_save (h.sound hs), ih]
    constructor
    · rintro ((hlisted | ⟨c', hc', hk⟩) | ⟨-, hround, rfl⟩)
      · exact .inl hlisted
      · exact .inr ⟨c', hold hc', hk⟩
      · exact .inr ⟨c, hnew, hround, rfl⟩
    · rintro (hlisted | ⟨c', hc', hround, rfl⟩)
      · exact .inl (.inl hlisted)
      · rcases Set.mem_insert_iff.mp hc' with rfl | hc'
        · -- If the certificate was there already, it counts already.
          cases hhas : CertificateStore.hasCertificate s' c'.digest with
          | false => exact .inr ⟨rfl, hround, rfl⟩
          | true =>
            rcases (h.has_iff hs _).mp hhas with hbefore | ⟨c'', hc'', hd⟩
            · exact .inl (.inl (hround ▸ hheld c' hnew hbefore))
            · obtain ⟨hround', hkey⟩ := hagree c'' (hold hc'') c' hnew hd
              exact .inl (.inr ⟨c'', hc'', hround'.trans hround, hkey⟩)
        · exact .inl (.inr ⟨c', hc', hround, rfl⟩)

end RoundWork

/-! ## Steps of a primary

The callback of a primary may save the certificate it is given. Apart from that a step saves what
it is delivered or forms, and tries to advance. -/

/-- The callback leaves the store alone or saves the certificate it is given. -/
def CertSink.SavesAtMost {κ CS : Type} [CertificateStore CS] (callback : CertSink κ CS) : Prop :=
  ∀ k s c, (callback k s c).2 = s ∨ (callback k s c).2 = (CertificateStore.saveCertificate s c).2

/-- Besides, its state lists the certificates it was given. -/
structure CertSink.Records {κ CS : Type} [CertificateStore CS] (sink : CertSink κ CS)
    (log : κ → List Certificate) : Prop where
  saves : sink.SavesAtMost
  logs : ∀ k s c, log (sink k s c).1 = log k ++ [c]

theorem CertSink.SavesAtMost.records {κ CS : Type} [CertificateStore CS]
    {callback : CertSink κ CS} (h : callback.SavesAtMost) :
    callback.logged.Records Prod.snd :=
  ⟨fun k s c => h k.1 s c, fun _ _ _ => rfl⟩

variable {e : PrimaryEvent × PrimaryEnv}

section

variable [Crypto] {κ CS : Type} [CertificateStore CS]

namespace Primary

/-- The validators are the same, and what became of the round and the store is round work. -/
structure Works (p : Primary) (certStore : CS) (certs : Set Certificate) (p' : Primary)
    (certStore' : CS) : Prop where
  validatorSet : p'.validatorSet = p.validatorSet
  work : RoundWork p.validatorSet.quorum p.currentRound certStore certs p'.currentRound certStore'

variable {p p' p'' : Primary} {certStore certStore' certStore'' : CS}
variable {certs certs' : Set Certificate}

theorem Works.refl (p : Primary) (certStore : CS) : p.Works certStore ∅ p certStore :=
  ⟨rfl, .refl _ _⟩

theorem Works.trans (h : p.Works certStore certs p' certStore')
    (h' : p'.Works certStore' certs' p'' certStore'') :
    p.Works certStore (certs ∪ certs') p'' certStore'' := by
  obtain ⟨hvs, hwork⟩ := h'
  rw [h.validatorSet] at hwork
  exact ⟨hvs.trans h.validatorSet, h.work.trans hwork⟩

theorem Works.tryAdvanceRound (h : p.Works certStore certs p' certStore') :
    p.Works certStore certs (p'.tryAdvanceRound certStore') certStore' := by
  obtain ⟨currentRound, heq⟩ := p'.tryAdvanceRound_eq certStore'
  refine ⟨by rw [heq, h.validatorSet], ?_⟩
  unfold Primary.tryAdvanceRound
  split
  · exact h.work
  · next hlisted =>
      split
      · next hquorum => exact h.work.advance hlisted (h.validatorSet ▸ hquorum)
      · exact h.work

/-- What becomes of a certificate that is delivered, if it is accepted at all. -/
def taken (p : Primary) (cert : Certificate) : List Certificate :=
  if !p.running then []
  else match cert.verify p.validatorSet with
    | .error _ => []
    | .ok () => [cert]

theorem handleCertificate_works (p : Primary) (certStore : CS) (cert : Certificate) :
    p.Works certStore {c | c ∈ p.taken cert} (p.handleCertificate certStore cert).2.1
      (p.handleCertificate certStore cert).2.2 := by
  unfold handleCertificate taken
  split
  · exact ⟨rfl, (RoundWork.refl _ _).congr (by simp)⟩
  · cases cert.verify p.validatorSet with
    | error err => exact ⟨rfl, (RoundWork.refl _ _).congr (by simp)⟩
    | ok _ =>
      have hsaved : p.Works certStore {c | c ∈ [cert]} p
          (CertificateStore.saveCertificate certStore cert).2 :=
        ⟨rfl, ((RoundWork.refl _ _).save cert).congr (by simp)⟩
      dsimp only
      split
      · exact hsaved
      · exact hsaved.tryAdvanceRound

/-- While the primary works, on the certificates the callback was given. -/
def Worked (log : κ → List Certificate) (p₀ : Primary) (s₀ : CS) (p : Primary) (certStore : CS)
    (k : κ) : Prop :=
  p₀.Works s₀ {c | c ∈ log k} p certStore

namespace Worked

variable {log : κ → List Certificate} {p₀ : Primary} {s₀ : CS} {k : κ} {sink : CertSink κ CS}

theorem start (p : Primary) (certStore : CS) (hlog : log k = []) :
    Worked log p certStore p certStore k :=
  ⟨rfl, (RoundWork.refl _ _).congr (by simp [hlog])⟩

variable [SliceSort]

theorem recordVote (h : Worked log p₀ s₀ p certStore k) (hsink : sink.Records log)
    (vote : Vote) (order : IterOrder Vote) (now : Int) :
    Leaves (Worked log p₀ s₀) (p.recordVote certStore sink k vote order now).2 := by
  obtain ⟨hvs, hwork⟩ := h
  obtain ⟨vt, -, heq | ⟨ph, -, -, heq⟩⟩ := p.recordVote_cases certStore sink k vote order now
  · rw [heq]
    exact ⟨hvs, hwork⟩
  · rw [heq]
    generalize VoteTracker.formCertificate ph p.validatorSet.quorum order = cert
    have hlog : {c | c ∈ log (sink k (CertificateStore.saveCertificate certStore cert).2 cert).1} =
        insert cert {c | c ∈ log k} := by
      ext c
      simp [hsink.logs, or_comm]
    refine ⟨hvs, ?_⟩
    show RoundWork _ _ s₀ {c | c ∈ log (sink k _ cert).1} p.currentRound (sink k _ cert).2
    rw [hlog]
    rcases hsink.saves k (CertificateStore.saveCertificate certStore cert).2 cert with hs | hs
    · rw [hs]
      exact hwork.save cert
    · rw [hs, ← Set.insert_idem]
      exact (hwork.save cert).save cert

theorem handleVote (h : Worked log p₀ s₀ p certStore k) (hsink : sink.Records log)
    (vote : Vote) (order : IterOrder Vote) (now : Int) :
    Leaves (Worked log p₀ s₀) (p.handleVote certStore sink k vote order now).2 :=
  handleVote_leaves h fun _ => ⟨⟨h.validatorSet, h.work⟩, h.recordVote hsink vote order now⟩

theorem survives (hsink : sink.Records log) (order : IterOrder Vote) (now : Int)
    (digest : Hash) : Survives (Worked log p₀ s₀) (fun _ => True) sink order now digest where
  record hI _ := hI.recordVote hsink _ order now
  advance hI := hI.tryAdvanceRound
  buffered _ _ _ _ := trivial
  unbuffer hI := ⟨hI.validatorSet, hI.work⟩

theorem tryCreateHeader (h : Worked log p₀ s₀ p certStore k) (hsink : sink.Records log)
    (hasAckQuorum : Hash → Bool) (order : IterOrder Vote) (now : Int) :
    Leaves (Worked log p₀ s₀) (p.tryCreateHeader certStore sink k hasAckQuorum order now).2 :=
  tryCreateHeader_survives (J := fun _ => Worked log p₀ s₀) (V := fun _ _ => True) hasAckQuorum
    (fun _ => ⟨h.validatorSet, h.work⟩)
    (fun _ _ _ _ _ => ⟨⟨h.validatorSet, h.work⟩, fun _ _ => trivial⟩)
    (fun header => survives hsink order now header.digest) (fun _ _ _ _ hJ => hJ)

end Worked

end Primary

namespace PrimarySystem

variable [SliceSort]

theorem step_forward (callback : CertSink κ CS) (s : PrimarySystem κ CS) (he : e.1 ≠ .restart) :
    s.primary.Forward (step callback s e).1.primary := by
  obtain ⟨e, env⟩ := e
  cases e with
  | restart => exact absurd rfl he
  | addBatchDigest | cleanup => exact .inl rfl
  | headerTick => exact s.primary.tryCreateHeader_forward _ _ _ _ _ _
  | vote => exact .inl (s.primary.handleVote_currentRound _ _ _ _ _ _)
  | header header available =>
    refine .inl ?_
    unfold step
    dsimp only
    split <;> rfl
  | certificate => exact s.primary.handleCertificate_forward _ _
  | advanceRound => exact s.primary.tryAdvanceRound_forward _

/-- The certificates that a step puts into the store: one that is delivered and verifies,
and those that are formed. -/
def obtained (callback : CertSink κ CS) (s : PrimarySystem κ CS)
    (e : PrimaryEvent × PrimaryEnv) : List Certificate :=
  match e.1 with
  | .certificate cert => s.primary.taken cert
  | _ => certifiedCertificates (step callback s e).2

variable {callback : CertSink κ CS} (hcallback : callback.SavesAtMost)

include hcallback

theorem step_works (s : PrimarySystem κ CS) (he : e.1 ≠ .restart) :
    s.primary.Works s.certStore {c | c ∈ s.obtained callback e} (step callback s e).1.primary
      (step callback s e).1.certStore := by
  obtain ⟨e, env⟩ := e
  have hnone : ∀ {certs : List Certificate}, certs = [] →
      RoundWork s.primary.validatorSet.quorum s.primary.currentRound s.certStore {c | c ∈ certs}
        s.primary.currentRound s.certStore := by
    rintro _ rfl
    exact (RoundWork.refl _ _).congr (by simp)
  have hstart : Primary.Worked Prod.snd s.primary s.certStore s.primary s.certStore (s.sink, []) :=
    .start _ _ rfl
  cases e with
  | restart => exact absurd rfl he
  | addBatchDigest digest => exact ⟨rfl, hnone rfl⟩
  | cleanup => exact ⟨rfl, hnone (by simp [obtained, step, certifiedCertificates])⟩
  | header header available =>
    have hstep : (step callback s (.header header available, env)).1 = s ∧
        certifiedCertificates (step callback s (.header header available, env)).2 = [] := by
      unfold step
      dsimp only
      split <;> exact ⟨rfl, rfl⟩
    rw [hstep.1]
    exact ⟨rfl, hnone hstep.2⟩
  | advanceRound => exact Primary.Works.tryAdvanceRound ⟨rfl, hnone rfl⟩
  | certificate cert => exact s.primary.handleCertificate_works s.certStore cert
  | vote vote =>
    obtain ⟨hvs, hwork⟩ := hstart.handleVote hcallback.records vote env.votes env.now
    refine ⟨hvs, hwork.congr fun c => ?_⟩
    simp [obtained, step, withFormed, certifiedCertificates, List.filterMap_map]
  | headerTick hasAckQuorum =>
    obtain ⟨hvs, hwork⟩ :=
      hstart.tryCreateHeader hcallback.records hasAckQuorum env.votes env.now
    refine ⟨hvs, hwork.congr fun c => ?_⟩
    simp [obtained, step, withFormed, certifiedCertificates, List.filterMap_map]

end PrimarySystem

namespace Primary

variable [TalliesRounds CS] {p p' : Primary} {certStore certStore' : CS}

/-- The store answers, and has a quorum for the round before. -/
structure Grounded (p : Primary) (certStore : CS) : Prop where
  sound : TalliesRounds.sound certStore
  parents : p.currentRound = 0 ∨ p.validatorSet.quorum ≤
    (listedCertificates certStore (p.currentRound - 1)).length

theorem Works.grounded {certs : Set Certificate} (h : p.Works certStore certs p' certStore')
    (hp : p.Grounded certStore) : p'.Grounded certStore' := by
  refine ⟨h.work.sound hp.sound, ?_⟩
  rw [h.validatorSet]
  exact h.work.grounded hp.sound hp.parents

theorem selectParents_eq [SliceSort] (hs : TalliesRounds.sound certStore)
    (hround : p.currentRound ≠ 0) :
    p.selectParents certStore p.currentRound =
      ((SliceSort.sortSlice (fun a b => decide (a.author.toNat < b.author.toNat))
        (listedCertificates certStore (p.currentRound - 1))).take
          p.validatorSet.quorum).map (·.getRef) := by
  obtain ⟨cs, hcs⟩ := TalliesRounds.answers (p.currentRound - 1) hs
  rw [selectParents, if_neg hround, hcs, listedCertificates_of_ok hcs]

theorem Grounded.length_selectParents [SliceSort] (h : p.Grounded certStore) :
    (p.selectParents certStore p.currentRound).length =
      if p.currentRound = 0 then 0 else p.validatorSet.quorum := by
  split
  · next hzero =>
      rw [selectParents, if_pos hzero]
      rfl
  · next hround =>
      rw [selectParents_eq h.sound hround, List.length_map, List.length_take,
        SliceSort.length_sortSlice]
      exact Nat.min_eq_left (h.parents.resolve_left hround)

end Primary

/-! ## A quorum of authors

A round is left when enough certificates are listed for it. The store on disk lists one for each
author; the one in memory lists all. -/

/-- The store holds certificates of a round from this many authors. -/
def HoldsQuorum (certStore : CS) (quorum : Nat) (round : UInt64) : Prop :=
  ∃ certs : List Certificate, quorum ≤ certs.length ∧ (certs.map Certificate.author).Nodup ∧
    ∀ c ∈ certs, CertificateStore.getCertificate certStore c.digest = .ok c ∧ c.round = round

/-- No author has two certificates of the round in the store. -/
def OneEach (certStore : CS) (round : UInt64) : Prop :=
  ∀ c c', CertificateStore.getCertificate certStore c.digest = .ok c →
    CertificateStore.getCertificate certStore c'.digest = .ok c' →
    c.round = round → c'.round = round → c.author = c'.author → c = c'

omit [Crypto] in
theorem HoldsQuorum.of_listed [TalliesRounds CS] {certStore : CS} {quorum : Nat}
    {round : UInt64} (hs : TalliesRounds.sound certStore)
    (hquorum : quorum ≤ (listedCertificates certStore round).length)
    (hauthors : ((listedCertificates certStore round).map Certificate.author).Nodup) :
    HoldsQuorum certStore quorum round :=
  ⟨_, hquorum, hauthors, fun _ hc => TalliesRounds.stored hs hc⟩

namespace PrimarySystem

variable [SliceSort]

/-- From every round that the step leaves there is a quorum of authors in the store, if
what is assumed of the store and the round holds. -/
def AdvancesOnQuorum (assuming : CS → UInt64 → Prop) (callback : CertSink κ CS)
    (s : PrimarySystem κ CS) (e : PrimaryEvent × PrimaryEnv) : Prop :=
  ∃ n : Nat,
    (step callback s e).1.primary.currentRound = s.primary.currentRound + UInt64.ofNat n ∧
    ∀ i < n, assuming (step callback s e).1.certStore (s.primary.currentRound + UInt64.ofNat i) →
      HoldsQuorum (step callback s e).1.certStore s.primary.validatorSet.quorum
        (s.primary.currentRound + UInt64.ofNat i)

variable [TalliesRounds CS]
variable {callback : CertSink κ CS} (hcallback : callback.SavesAtMost)

include hcallback

theorem step_sound {s : PrimarySystem κ CS} (hs : TalliesRounds.sound s.certStore)
    (e : PrimaryEvent × PrimaryEnv) :
    TalliesRounds.sound (step callback s e).1.certStore := by
  obtain ⟨e, env⟩ := e
  by_cases he : e = .restart
  · subst he
    exact hs
  · exact (step_works hcallback s (e := (e, env)) he).work.sound hs

theorem advancesOnQuorum {assuming : CS → UInt64 → Prop}
    (hauthors : ∀ certStore round, TalliesRounds.sound certStore → assuming certStore round →
      ((listedCertificates certStore round).map Certificate.author).Nodup)
    (validatorID : UInt16) (signer : Signer) (cfg : PrimaryConfig) (vs : SimpleValidatorSet) :
    Run.Always
      (fun s => Started validatorID signer cfg vs s ∧ TalliesRounds.sound s.certStore)
      (step callback) (fun _ _ _ => True)
      (fun s _ e => e.1 ≠ .restart → s.AdvancesOnQuorum assuming callback e) := by
  refine Run.Always.of_invariant (I := fun s _ => TalliesRounds.sound s.certStore)
    (fun s hs => hs.2) (fun s _ e hs _ => step_sound hcallback hs e) ?_
  intro s _ e hs _ he
  have hwork := (step_works hcallback s he).work
  obtain ⟨n, hn, hpassed⟩ := hwork.passed hs
  have hs' := hwork.sound hs
  exact ⟨n, hn, fun i hi hassume => .of_listed hs' (hpassed i hi) (hauthors _ _ hs' hassume)⟩

end PrimarySystem

omit [Crypto] in
theorem MemoryCertificateStore.nodup_authors {s : MemoryCertificateStore} (hs : s.Sound)
    {round : UInt64} (hone : OneEach s round) :
    ((listedCertificates s round).map Certificate.author).Nodup := by
  have hnodup : ((listedCertificates s round).map Certificate.digest).Nodup :=
    TalliesRounds.nodup (s := s) round hs
  rw [List.Nodup, List.pairwise_map] at hnodup ⊢
  refine hnodup.imp_of_mem fun {c c'} hc hc' hne hauthor => hne ?_
  obtain ⟨hget, hround⟩ := TalliesRounds.stored hs hc
  obtain ⟨hget', hround'⟩ := TalliesRounds.stored hs hc'
  rw [hone c c' hget hget' hround hround' hauthor]

/-- On disk the store of a primary that leaves a round has a quorum of authors for it. In
memory it has one if no author has two certificates. -/
theorem round_advance_quorum [SliceSort] [Cramberry Certificate] (validatorID : UInt16)
    (signer : Signer) (cfg : PrimaryConfig) (vs : SimpleValidatorSet)
    (onMemory : CertSink κ MemoryCertificateStore)
    (onDisk : CertSink κ LevelDBCertificateStore)
    (hmemory : onMemory.SavesAtMost) (hdisk : onDisk.SavesAtMost) :
    Run.Always
      (fun s => PrimarySystem.Started validatorID signer cfg vs s ∧ s.certStore.Sound)
      (PrimarySystem.step onMemory) (fun _ _ _ => True)
      (fun s _ e => e.1 ≠ .restart → s.AdvancesOnQuorum OneEach onMemory e) ∧
    Run.Always
      (fun s => PrimarySystem.Started validatorID signer cfg vs s ∧ s.certStore.Sound)
      (PrimarySystem.step onDisk) (fun _ _ _ => True)
      (fun s _ e => e.1 ≠ .restart → s.AdvancesOnQuorum (fun _ _ => True) onDisk e) :=
  ⟨PrimarySystem.advancesOnQuorum hmemory
      (fun _ _ hs hone => MemoryCertificateStore.nodup_authors hs hone) validatorID signer cfg vs,
    PrimarySystem.advancesOnQuorum hdisk
      (fun _ round hs _ => TalliesRounds.nodup round hs) validatorID signer cfg vs⟩

end

section

open IdealScheme

attribute [local instance] idealCertificateCramberry

/-- A callback that does nothing. -/
def idleSink {CS : Type} : CertSink Unit CS := fun k certStore _ => (k, certStore)

theorem idleSink_savesAtMost {CS : Type} [CertificateStore CS] :
    (idleSink : CertSink Unit CS).SavesAtMost :=
  fun _ _ _ => .inl rfl

/-- Certificates delivered one after the other. -/
def deliveries (certs : List Certificate) : List PrimaryEvent := certs.map .certificate

def delivered (certs : List Certificate) : PrimarySystem Unit MemoryCertificateStore :=
  (idealPrimaryExec idleSink () (deliveries certs)).1

theorem reach_delivered (certs : List Certificate) :
    Run.Reach (fun s => PrimarySystem.Started 0 (idealSigner 0) idealPrimaryConfig
        (idealValidators 4 0) s ∧ s.certStore.Sound) (PrimarySystem.step idleSink)
      (fun _ _ _ => True) (delivered certs)
      (idealPrimaryExec idleSink () (deliveries certs)).2 :=
  reach_idealPrimaryExec ⟨rfl, MemoryCertificateStore.sound_new⟩
    (Run.AllOk.of_forall (fun _ _ _ => trivial) _ _ _)

theorem delivered_sound (certs : List Certificate) :
    TalliesRounds.sound (delivered certs).certStore :=
  (reach_delivered certs).invariant (I := fun s _ => TalliesRounds.sound s.certStore)
    (fun _ hs => hs.2) fun _ _ e hs _ => PrimarySystem.step_sound idleSink_savesAtMost hs e

/-- A primary that was given two certificates of round `0` and is given a third goes on
to round `1`. -/
theorem round_advance_quorum_ideal :
    (delivered ((votedRound 0).take 2)).AdvancesOnQuorum OneEach idleSink
        (.certificate (votedCertificate 3 0 [] []), { now := 3, votes := .listed }) ∧
      (PrimarySystem.step idleSink (delivered ((votedRound 0).take 2))
        (.certificate (votedCertificate 3 0 [] []),
          { now := 3, votes := .listed })).1.primary.currentRound = 1 :=
  ⟨(round_advance_quorum 0 (idealSigner 0) idealPrimaryConfig (idealValidators 4 0)
      idleSink idleSink idleSink_savesAtMost idleSink_savesAtMost).1 _ _ _
      (reach_delivered _) trivial (by simp),
    by decide +kernel⟩

/-- Three certificates of one author in round `0`. -/
def onesidedRound : List Certificate :=
  [votedCertificate 1 0 [] [], votedCertificate 1 0 [⟨1, 1, 1⟩] [],
    votedCertificate 1 0 [⟨2, 1, 1⟩] []]

theorem length_le_one_of_author {certs : List Certificate} {a : UInt16}
    (hnodup : (certs.map Certificate.author).Nodup) (hauthor : ∀ c ∈ certs, c.author = a) :
    certs.length ≤ 1 := by
  have hall : certs.map Certificate.author = List.replicate certs.length a := by
    rw [List.eq_replicate_iff]
    refine ⟨List.length_map _, fun b hb => ?_⟩
    obtain ⟨c, hc, rfl⟩ := List.mem_map.mp hb
    exact hauthor c hc
  rwa [hall, List.nodup_replicate] at hnodup

/-- Over a store in memory three certificates of one author are enough to go on. -/
theorem round_advance_one_author :
    ¬ Run.Always
      (fun s => PrimarySystem.Started 0 (idealSigner 0) idealPrimaryConfig
        (idealValidators 4 0) s ∧ s.certStore.Sound)
      (PrimarySystem.step (idleSink : CertSink Unit MemoryCertificateStore)) (fun _ _ _ => True)
      (fun s _ e => e.1 ≠ .restart → s.AdvancesOnQuorum (fun _ _ => True) idleSink e) := by
  intro halways
  obtain ⟨n, hn, hholds⟩ := halways _ _ (.certificate (votedCertificate 1 0 [⟨2, 1, 1⟩] []),
    { now := 3, votes := .listed }) (reach_delivered (onesidedRound.take 2)) trivial (by simp)
  have hbefore : (delivered (onesidedRound.take 2)).primary.currentRound = 0 := by decide +kernel
  have hafter : (PrimarySystem.step idleSink (delivered (onesidedRound.take 2))
      (.certificate (votedCertificate 1 0 [⟨2, 1, 1⟩] []),
        { now := 3, votes := .listed })).1.primary.currentRound = 1 := by decide +kernel
  have hvalues : ((PrimarySystem.step idleSink (delivered (onesidedRound.take 2))
      (.certificate (votedCertificate 1 0 [⟨2, 1, 1⟩] []),
        { now := 3, votes := .listed })).1.certStore.index.items.values.all
      fun c => c.author == 1) = true := by decide +kernel
  have hquorum : (delivered (onesidedRound.take 2)).primary.validatorSet.quorum = 3 := by
    decide +kernel
  have hpos : 0 < n := by
    rcases Nat.eq_zero_or_pos n with rfl | hpos
    · rw [hbefore, hafter] at hn
      exact absurd hn (by decide)
    · exact hpos
  obtain ⟨certs, hlen, hnodup, hcerts⟩ := hholds 0 hpos trivial
  have hle := length_le_one_of_author (a := 1) hnodup fun c hc => by
    obtain ⟨-, hget⟩ := MemoryCertificateStore.getCertificate_eq_ok.mp (hcerts c hc).1
    exact beq_iff_eq.mp (List.all_eq_true.mp hvalues c (GoMap.mem_values.mpr ⟨_, hget⟩))
  omega

end

/-! ## The order in which certificates come

The first round without a quorum depends on the certificates only. Whether the primary is
in it depends on their order: a certificate that completes a round while the next one is
complete already moves the first round without a quorum by two, and the primary by one; a
certificate that was formed here completes a round and does not move the primary at all. -/

section

variable [Crypto] [SliceSort] {κ CS : Type} [CertificateStore CS]

namespace PrimarySystem

/-- The primary after some events. -/
def after (callback : CertSink κ CS) (s : PrimarySystem κ CS)
    (events : List (PrimaryEvent × PrimaryEnv)) : PrimarySystem κ CS :=
  (Run.exec (Run.history (step callback)) s [] events).1

/-- The round is one from the first on that has no quorum of certificates in the store. -/
def Short (first : UInt64) (s : PrimarySystem κ CS) (round : UInt64) : Prop :=
  first ≤ round ∧ (listedCertificates s.certStore round).length < s.primary.validatorSet.quorum
deriving Decidable

variable [TalliesRounds CS]

/-- The first round without a quorum stays the first; or a certificate is delivered, and it
is the next one. -/
def InOrder (callback : CertSink κ CS) (first : UInt64) (s : PrimarySystem κ CS)
    (e : PrimaryEvent × PrimaryEnv) : Prop :=
  e.1 ≠ .restart ∧ ∀ round, IsLeast {round | s.Short first round} round →
    (step callback s e).1.Short first round ∨
      (∃ cert, e.1 = .certificate cert) ∧ (step callback s e).1.Short first (round + 1)

variable {callback : CertSink κ CS} (hcallback : callback.SavesAtMost)

include hcallback

end PrimarySystem

end

section

open IdealScheme

end

end DagMempool
