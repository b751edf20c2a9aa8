import DagMempool.Proofs.CausalHistory

/-!
# What the history cache answers

A cached history is the right answer as long as the traversal it came from would still find
the same digests. The traversal depends on which of the digests that its certificates refer
to can be resolved, and on nothing else if a digest determines the parents. Prunes drop
every entry, and a load resolves nothing that the store did not resolve before. So all that
can go wrong is the addition of a certificate that an entry refers to and could not find.

An addition drops the entries of higher rounds, "since causal history only goes backwards".
Nothing makes it do so: the round of a parent is not looked at, and a certificate of round
`0`, or one that is only asked about, need not have its parents in the DAG at all.
-/

namespace DagMempool

/-- A set of certificates in which a digest determines the parents. -/
def DigestsFixParents (S : Certificate → Prop) : Prop :=
  ∀ c c', S c → S c' → c.digest = c'.digest → Dag.parentDigests c = Dag.parentDigests c'

variable {d : Dag} {cert : Certificate}

namespace Dag

variable {CS : Type} [CertificateStore CS]

def traversal (d : Dag) (certStore : CS) (cert : Certificate) : List Certificate :=
  LevelSearch.search Certificate.digest parentDigests (d.findParent certStore)
    d.cfg.maxHistoryDepth cert

/-- What a traversal reads of a certificate. -/
abbrev outline : Certificate → Hash × List Hash :=
  LevelSearch.shape Certificate.digest parentDigests

theorem map_digest_of_outlines {l l' : List Certificate} (h : l.map outline = l'.map outline) :
    l.map Certificate.digest = l'.map Certificate.digest := by
  have hfst := congrArg (List.map Prod.fst) h
  rwa [List.map_map, List.map_map] at hfst

variable {digest : Hash} {history : List Certificate}

theorem findParent_eq_some {certStore : CS} {c : Certificate} :
    d.findParent certStore digest = some c ↔ d.getCertificate certStore digest = .ok c :=
  toOption_eq_some

theorem get_evictHistories {n : Nat}
    (h : (evictHistories n d).historyCache.get digest = some history) :
    d.historyCache.get digest = some history := by
  induction n generalizing d with
  | zero => exact h
  | succ n ih =>
    rw [evictHistories] at h
    split at h
    · exact h
    · have hdel := ih h
      rw [GoMap.get_del] at hdel
      split at hdel
      · cases hdel
      · exact hdel

theorem get_makeRoom (h : d.makeRoom.historyCache.get digest = some history) :
    d.historyCache.get digest = some history := by
  unfold makeRoom at h
  split at h
  · exact get_evictHistories h
  · exact h

theorem get_causalHistory {certStore : CS}
    (h : (d.causalHistory certStore cert).2.historyCache.get digest = some history) :
    d.historyCache.get digest = some history ∨
      digest = cert.digest ∧ history = d.traversal certStore cert := by
  unfold causalHistory at h
  split at h
  · exact .inl h
  · rcases GoMap.get_set_eq_some h with ⟨hd, hh⟩ | ⟨-, hold⟩
    · exact .inr ⟨hd, hh⟩
    · exact .inl (get_makeRoom hold)

theorem get_insertCertificate
    (h : (d.insertCertificate cert).historyCache.get digest = some history) :
    d.historyCache.get digest = some history ∧ historyAbove cert.round history = false := by
  have hcache : (d.insertCertificate cert).historyCache =
      d.historyCache.filter fun _ history => !historyAbove cert.round history := rfl
  rw [hcache, GoMap.get_filter_eq_some] at h
  exact ⟨h.1, by simpa using h.2⟩

theorem historyCache_loadRound (d : Dag) (certStore : CS) (round : UInt64) :
    (d.loadRound certStore round).2.historyCache = d.historyCache ∧
      (d.loadRound certStore round).2.cfg = d.cfg := by
  unfold loadRound
  split <;> exact ⟨rfl, rfl⟩

theorem historyCache_ensureRound (d : Dag) (round : UInt64) :
    (d.ensureRound round).historyCache = d.historyCache ∧ (d.ensureRound round).cfg = d.cfg := by
  unfold ensureRound
  split <;> exact ⟨rfl, rfl⟩

end Dag

namespace DagState

variable {CS : Type} [CertificateStore CS] [ReadsBack CS] {S : Certificate → Prop}
variable {s s' : DagState CS}

/-! ## What can be resolved

A digest is resolved by the index or by the store. An addition resolves one digest more; a load
none, since what it brings is in the store. -/

/-- Everything the index and the store answer with is of a set. -/
structure Within (S : Certificate → Prop) (s : DagState CS) : Prop where
  keyed : s.Keyed
  index : ∀ digest c, s.dag.certIndex.get digest = some c → S c
  store : ∀ digest c, CertificateStore.getCertificate s.certStore digest = .ok c → S c

/-- A digest can be resolved. -/
def Resolves (s : DagState CS) (digest : Hash) : Prop :=
  ∃ c, s.dag.getCertificate s.certStore digest = .ok c

variable {digest : Hash}

omit [ReadsBack CS] in
theorem resolves_iff :
    s.Resolves digest ↔ (∃ c, s.dag.certIndex.get digest = some c) ∨
      ∃ c, CertificateStore.getCertificate s.certStore digest = .ok c := by
  unfold Resolves Dag.getCertificate
  cases s.dag.certIndex.get digest with
  | none => simp
  | some c => simp

omit [ReadsBack CS] in
theorem resolves_congr (hindex : s'.dag.certIndex = s.dag.certIndex)
    (hstore : s'.certStore = s.certStore) : s'.Resolves digest ↔ s.Resolves digest := by
  rw [resolves_iff, resolves_iff, hindex, hstore]

theorem Within.found (h : s.Within S) {c : Certificate}
    (hc : s.dag.findParent s.certStore digest = some c) : S c ∧ c.digest = digest := by
  have hget := Dag.findParent_eq_some.mp hc
  refine ⟨?_, h.keyed.dag digest c hget⟩
  unfold Dag.getCertificate at hget
  split at hget
  · next c' hc' =>
      obtain rfl := Except.ok.inj hget
      exact h.index digest c' hc'
  · exact h.store digest c hget

theorem Within.outline_eq (hS : DigestsFixParents S) (h : s.Within S) (h' : s'.Within S)
    (hiff : s'.Resolves digest ↔ s.Resolves digest) :
    (s.dag.findParent s.certStore digest).map Dag.outline =
      (s'.dag.findParent s'.certStore digest).map Dag.outline := by
  have hsome : ∀ {t : DagState CS}, t.Resolves digest ↔
      ∃ c, t.dag.findParent t.certStore digest = some c := by
    intro t
    simp only [Dag.findParent_eq_some]
    exact Iff.rfl
  cases hfind : s.dag.findParent s.certStore digest with
  | none =>
    cases hfind' : s'.dag.findParent s'.certStore digest with
    | none => rfl
    | some c =>
      obtain ⟨c', hc'⟩ := hsome.mp (hiff.mp (hsome.mpr ⟨c, hfind'⟩))
      exact absurd (hfind.symm.trans hc') (by simp)
  | some c =>
    obtain ⟨c', hc'⟩ := hsome.mp (hiff.mpr (hsome.mpr ⟨c, hfind⟩))
    obtain ⟨hc, hd⟩ := h.found hfind
    obtain ⟨hcs, hd'⟩ := h'.found hc'
    have hdigest : c.digest = c'.digest := hd.trans hd'.symm
    rw [hc', Option.map_some, Option.map_some]
    exact congrArg some (Prod.ext hdigest (hS c c' hc hcs hdigest))

theorem resolves_insertCertificate (hsound : SlotStore.sound s.certStore)
    (hne : digest ≠ cert.digest) (hindex : s'.dag.certIndex = s.dag.certIndex.set cert.digest cert)
    (hstore : s'.certStore = (CertificateStore.saveCertificate s.certStore cert).2) :
    s'.Resolves digest ↔ s.Resolves digest := by
  rw [resolves_iff, resolves_iff, hindex, hstore, GoMap.get_set_ne hne]
  refine or_congr_right ⟨?_, ?_⟩
  · rintro ⟨c, hc⟩
    rcases SlotStore.get_save hsound hc with hold | rfl
    · exact ⟨c, hold⟩
    · exact absurd (SlotStore.digest_eq (SlotStore.sound_save _ hsound) hc) hne.symm
  · rintro ⟨c, hc⟩
    exact ⟨c, ReadsBack.save_keeps cert hsound hc⟩

theorem resolves_loadRound (hsound : SlotStore.sound s.certStore) (round : UInt64)
    (digest : Hash) : (s.step (.loadRound round)).1.Resolves digest ↔ s.Resolves digest := by
  rw [resolves_iff, resolves_iff]
  constructor
  · rintro (⟨c, hc⟩ | hstore)
    · rcases Dag.certIndex_loadRound hc with hold | ⟨hlisted, rfl⟩
      · exact .inl ⟨c, hold⟩
      · exact .inr ⟨c, (ReadsBack.stored hsound hlisted).1⟩
    · exact .inr hstore
  · rintro (⟨c, hc⟩ | hstore)
    · have hsome := Dag.isSome_certIndex_loadRound (Option.isSome_of_eq_some hc) s.certStore round
      exact .inl (Option.isSome_iff_exists.mp hsome)
    · exact .inr hstore

/-! ## Current entries

An entry was right when it was put in. It stays so while no digest that its certificates refer to
is resolved anew. -/

/-- What is asked of a call: certificates of the set, and of an addition that it does not
resolve a digest some cached history of no higher round refers to. -/
def KeepsHistories (S : Certificate → Prop) (s : DagState CS) : DagEvent → Prop
  | .addCertificate cert => S cert ∧
      (s.dag.Admits s.certStore cert → s.dag.findParent s.certStore cert.digest = none →
        ∀ history ∈ s.dag.historyCache.values, Dag.historyAbove cert.round history = false →
          ∀ c ∈ history, cert.digest ∉ Dag.parentDigests c)
  | .causalHistory cert => S cert
  | _ => True

instance [DecidablePred S] (s : DagState CS) : DecidablePred (KeepsHistories S s)
  | .addCertificate cert => inferInstanceAs (Decidable (S cert ∧ (Dag.Admits _ _ _ → _ = none →
      ∀ history ∈ _, Dag.historyAbove _ history = false → ∀ c ∈ history, _ ∉ Dag.parentDigests c)))
  | .causalHistory cert => inferInstanceAs (Decidable (S cert))
  | .setCommittedRound _ | .pruneRound _ | .pruneRoundsBefore _ | .loadRound _ => .isTrue trivial

/-- Every entry of the cache is what the traversal would find now, as far as a traversal
reads it. -/
structure Current (S : Certificate → Prop) (s : DagState CS) : Prop where
  within : s.Within S
  entry : ∀ digest history, s.dag.historyCache.get digest = some history →
    ∃ root, S root ∧ root.digest = digest ∧
      history.map Dag.outline = (s.dag.traversal s.certStore root).map Dag.outline

/-- Entries stay current while the digests they refer to are resolved as before. -/
theorem Current.carry (hS : DigestsFixParents S) (h : s.Current S) (hwithin : s'.Within S)
    (hcfg : s'.dag.cfg = s.dag.cfg)
    (hcache : ∀ digest history, s'.dag.historyCache.get digest = some history →
      s.dag.historyCache.get digest = some history ∧
        ∀ c ∈ history, ∀ k ∈ Dag.parentDigests c, s'.Resolves k ↔ s.Resolves k) :
    s'.Current S := by
  refine ⟨hwithin, fun digest history hget => ?_⟩
  obtain ⟨hold, hresolves⟩ := hcache digest history hget
  obtain ⟨root, hroot, hd, houtline⟩ := h.entry digest history hold
  refine ⟨root, hroot, hd, houtline.trans ?_⟩
  rw [Dag.traversal, Dag.traversal, hcfg]
  refine LevelSearch.search_congr _ rfl fun a ha k hk => ?_
  -- The entry has a certificate with the same references.
  have hmem : Dag.outline a ∈ history.map Dag.outline := by
    rw [houtline]
    exact List.mem_map_of_mem ha
  obtain ⟨c, hc, hca⟩ := List.mem_map.mp hmem
  have hrefs : Dag.parentDigests c = Dag.parentDigests a := congrArg Prod.snd hca
  exact h.within.outline_eq hS hwithin (hresolves c hc k (hrefs ▸ hk))

theorem Within.step (h : s.Within S) {e : DagEvent} (he : KeepsHistories S s e) :
    (s.step e).1.Within S := by
  refine ⟨step_keyed h.keyed e, ?_, ?_⟩
  · intro digest c hc
    cases e with
    | addCertificate cert =>
      rcases Dag.certIndex_addCertificate hc with hold | ⟨rfl, -⟩
      · exact h.index digest c hold
      · exact he.1
    | setCommittedRound round => exact h.index digest c hc
    | pruneRound round => exact h.index digest c (Dag.certIndex_pruneRound.mp hc).1
    | pruneRoundsBefore round => exact h.index digest c (Dag.certIndex_pruneRoundsBefore hc)
    | loadRound round =>
      rcases Dag.certIndex_loadRound hc with hold | ⟨hlisted, -⟩
      · exact h.index digest c hold
      · exact h.store _ c (ReadsBack.stored h.keyed.store hlisted).1
    | causalHistory cert =>
      obtain ⟨cache, keys, heq⟩ := s.dag.sameRounds_causalHistory s.certStore cert
      rw [DagState.step, heq] at hc
      exact h.index digest c hc
  · intro digest c hc
    cases e with
    | addCertificate cert =>
      rcases Dag.addCertificate_cases s.dag s.certStore cert with ⟨err, heq, -⟩ | ⟨-, heq⟩
      · rw [DagState.step, heq] at hc
        exact h.store digest c hc
      · rw [DagState.step, heq] at hc
        rcases SlotStore.get_save h.keyed.store hc with hold | rfl
        · exact h.store digest c hold
        · exact he.1
    | setCommittedRound | pruneRound | pruneRoundsBefore | loadRound | causalHistory =>
      exact h.store digest c hc

theorem Current.addCertificate (hS : DigestsFixParents S) (h : s.Current S)
    (he : KeepsHistories S s (.addCertificate cert)) :
    (s.step (.addCertificate cert)).1.Current S := by
  have hwithin := h.within.step he
  obtain ⟨hcache, hcfg⟩ := s.dag.historyCache_ensureRound cert.round
  have hindex := s.dag.certIndex_ensureRound cert.round
  rcases Dag.addCertificate_cases s.dag s.certStore cert with ⟨err, heq, -⟩ | ⟨hadm, heq⟩
  · rw [DagState.step, heq] at hwithin ⊢
    refine h.carry hS hwithin hcfg fun digest history hget => ⟨?_, fun c hc k hk => ?_⟩
    · rw [← hget, ← hcache]
    · exact resolves_congr hindex rfl
  · rw [DagState.step, heq] at hwithin ⊢
    refine h.carry hS hwithin hcfg fun digest history hget => ?_
    obtain ⟨hold, habove⟩ := Dag.get_insertCertificate hget
    rw [hcache] at hold
    refine ⟨hold, fun c hc k hk => ?_⟩
    by_cases hk' : k = cert.digest
    · -- The digest of the certificate itself: it was resolved before, or nobody refers to it.
      subst hk'
      cases hfind : s.dag.findParent s.certStore cert.digest with
      | none =>
        have hvalue := GoMap.mem_values.mpr ⟨digest, hold⟩
        exact absurd hk (he.2 hadm hfind history hvalue habove c hc)
      | some c' =>
        refine iff_of_true (resolves_iff.mpr (.inl ⟨cert, ?_⟩))
          ⟨c', Dag.findParent_eq_some.mp hfind⟩
        exact GoMap.get_set_self _ cert.digest cert
    · refine resolves_insertCertificate h.within.keyed.store hk' ?_ rfl
      rw [Dag.certIndex_insertCertificate, hindex]

theorem step_current (hS : DigestsFixParents S) (h : s.Current S) {e : DagEvent}
    (he : KeepsHistories S s e) : (s.step e).1.Current S := by
  have hwithin := h.within.step he
  cases e with
  | addCertificate cert => exact h.addCertificate hS he
  | setCommittedRound round =>
    exact h.carry hS hwithin rfl fun digest history hget =>
      ⟨hget, fun c hc k hk => resolves_congr rfl rfl⟩
  | pruneRound round =>
    exact ⟨hwithin, fun digest history hget =>
      absurd hget GoMap.get_empty_ne⟩
  | pruneRoundsBefore round =>
    exact ⟨hwithin, fun digest history hget =>
      absurd hget GoMap.get_empty_ne⟩
  | loadRound round =>
    obtain ⟨hcache, hcfg⟩ := s.dag.historyCache_loadRound s.certStore round
    refine h.carry hS hwithin hcfg fun digest history hget => ⟨?_, fun c hc k hk => ?_⟩
    · rw [← hget, ← hcache]
      rfl
    · exact resolves_loadRound h.within.keyed.store round k
  | causalHistory cert =>
    obtain ⟨cache, keys, heq⟩ := s.dag.sameRounds_causalHistory s.certStore cert
    have hdag : (s.step (.causalHistory cert)).1.dag =
        { s.dag with historyCache := cache, historyCacheKeys := keys } := heq
    have htraversal : ∀ root, (s.step (.causalHistory cert)).1.dag.traversal s.certStore root =
        s.dag.traversal s.certStore root := by
      intro root
      rw [hdag]
      rfl
    refine ⟨hwithin, fun digest history hget => ?_⟩
    rcases Dag.get_causalHistory hget with hold | ⟨rfl, rfl⟩
    · obtain ⟨root, hroot, hd, houtline⟩ := h.entry digest history hold
      exact ⟨root, hroot, hd, houtline.trans (by rw [← htraversal]; rfl)⟩
    · exact ⟨cert, he, rfl, by rw [← htraversal]; rfl⟩

/-- Whatever is done to a DAG, if no addition resolves what a cached history of no higher
round refers to, `CausalHistory` answers with the digests the traversal would find. -/
theorem history_cache_transparent (S : Certificate → Prop) (hS : DigestsFixParents S)
    {log : List DagOutput}
    (hreach : Reach
      (fun certStore => SlotStore.sound certStore ∧
        ∀ d c, CertificateStore.getCertificate certStore d = .ok c → S c)
      (fun s _ e => KeepsHistories S s e) s log)
    (cert : Certificate) (hcert : S cert) :
    (s.dag.causalHistory s.certStore cert).1.map Certificate.digest =
      (s.dag.traversal s.certStore cert).map Certificate.digest := by
  have hcurrent : s.Current S := by
    refine Run.Reach.invariant (I := fun s _ => s.Current S) ?_ ?_ hreach
    · rintro s ⟨⟨cfg, hnew⟩, hsound, hstored⟩
      have hindex : ∀ digest c, s.dag.certIndex.get digest ≠ some c := by
        intro digest c hc
        rw [hnew] at hc
        exact absurd hc GoMap.get_empty_ne
      refine ⟨⟨⟨fun digest c hc => absurd hc (hindex digest c), hsound⟩,
        fun digest c hc => absurd hc (hindex digest c), hstored⟩, fun digest history hget => ?_⟩
      rw [hnew] at hget
      exact absurd hget GoMap.get_empty_ne
    · exact fun s _ e h he => step_current hS h he
  cases hcache : s.dag.historyCache.get cert.digest with
  | none => rw [Dag.causalHistory_of_not_cached hcache, Dag.traversal]
  | some history =>
    obtain ⟨root, hroot, hd, houtline⟩ := hcurrent.entry cert.digest history hcache
    have hsame : Dag.outline root = Dag.outline cert :=
      Prod.ext hd (hS root cert hroot hcert hd)
    have htraversal : (s.dag.traversal s.certStore root).map Dag.outline =
        (s.dag.traversal s.certStore cert).map Dag.outline :=
      LevelSearch.search_congr s.dag.cfg.maxHistoryDepth hsame fun _ _ _ _ => rfl
    rw [Dag.causalHistory, hcache]
    exact Dag.map_digest_of_outlines (houtline.trans htraversal)

theorem digestsFixParents_mem {certs : List Certificate}
    (h : ∀ c ∈ certs, ∀ c' ∈ certs, c.digest = c'.digest →
      Dag.parentDigests c = Dag.parentDigests c') : DigestsFixParents (· ∈ certs) :=
  fun c c' hc hc' => h c hc c' hc'

/-- A certificate of round `1` is asked about, then its parents are added one by one, with a
query after each. -/
def askedEarly : List DagEvent :=
  .causalHistory (votedCertificate 1 1 [] (votedRound 0)) ::
    (votedRound 0).flatMap fun c =>
      [.addCertificate c, .causalHistory (votedCertificate 1 1 [] (votedRound 0))]

theorem history_cache_transparent_askedEarly :
    ((idealDagRun askedEarly).1.dag.historyCache.has
      (votedCertificate 1 1 [] (votedRound 0)).digest) = true ∧
    ((idealDagRun askedEarly).1.dag.causalHistory (idealDagRun askedEarly).1.certStore
        (votedCertificate 1 1 [] (votedRound 0))).1.map Certificate.digest =
      ((idealDagRun askedEarly).1.dag.traversal (idealDagRun askedEarly).1.certStore
        (votedCertificate 1 1 [] (votedRound 0))).map Certificate.digest := by
  have hfix : DigestsFixParents (· ∈ votedRound 0 ++ votedRound 1) :=
    digestsFixParents_mem (by decide +kernel)
  have hstored : ∀ d c,
      CertificateStore.getCertificate MemoryCertificateStore.new d = .ok c →
        c ∈ votedRound 0 ++ votedRound 1 := by
    intro d c hc
    obtain ⟨-, hget⟩ := MemoryCertificateStore.getCertificate_eq_ok.mp hc
    exact absurd hget GoMap.get_empty_ne
  refine ⟨by decide +kernel, history_cache_transparent _ hfix
    (reach_idealDagRun ⟨MemoryCertificateStore.sound_new, hstored⟩ (by decide +kernel)) _
    (by decide +kernel)⟩

/-- A certificate of round `0` and one it refers to, of the same round. -/
def levelPair : List Certificate :=
  [votedCertificate 1 0 [] [], votedCertificate 2 0 [] [votedCertificate 1 0 [] []]]

def addedLate : List DagEvent :=
  [.addCertificate (votedCertificate 2 0 [] [votedCertificate 1 0 [] []]),
    .causalHistory (votedCertificate 2 0 [] [votedCertificate 1 0 [] []]),
    .addCertificate (votedCertificate 1 0 [] [])]

/-- The cache goes on answering without the first, which the traversal finds. -/
theorem history_cache_stale :
    DigestsFixParents (· ∈ levelPair) ∧
    Reach (· = .new) (fun _ _ _ => True) (idealDagRun addedLate).1 (idealDagRun addedLate).2 ∧
    ∃ cert ∈ levelPair,
      ((idealDagRun addedLate).1.dag.causalHistory (idealDagRun addedLate).1.certStore
        cert).1.map Certificate.digest ≠
      ((idealDagRun addedLate).1.dag.traversal (idealDagRun addedLate).1.certStore
        cert).map Certificate.digest := by
  refine ⟨digestsFixParents_mem (by decide +kernel),
    reach_idealDagRun rfl (Run.AllOk.of_forall (fun _ _ _ => trivial) _ _ _), ?_⟩
  decide +kernel

end DagState

end DagMempool
