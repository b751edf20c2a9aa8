import DagMempool.Proofs.DagRuns

/-!
# What a causal history is

The history of a certificate is what its parent references lead to, up to a depth, each
certificate once and the nearer ones first. A digest stands for the certificate
`GetCertificate` finds under it, in memory or in the store, and for none if there is none;
the digest of the certificate asked about stands for that certificate itself, which need
not be in the DAG.

Certificates are told apart by digest, so this asks that what is found under a digest has
that digest. It does in every state a DAG gets into, over a store that keeps the same rule:
the index is written under the digests of what it holds.
-/

namespace DagMempool

namespace Dag

variable {CS : Type} [CertificateStore CS]

/-- What `GetCertificate` finds under a digest has that digest. -/
def Keyed (d : Dag) (certStore : CS) : Prop :=
  ∀ digest c, d.getCertificate certStore digest = .ok c → c.digest = digest

end Dag

namespace DagState

variable {CS : Type} [CertificateStore CS] [SlotStore CS] {s : DagState CS}

/-- The index and the store both answer with the digest asked for. -/
structure Keyed (s : DagState CS) : Prop where
  index : ∀ digest c, s.dag.certIndex.get digest = some c → c.digest = digest
  store : SlotStore.sound s.certStore

theorem Keyed.dag (h : s.Keyed) : s.dag.Keyed s.certStore := by
  intro digest c hc
  unfold Dag.getCertificate at hc
  split at hc
  · next cert hget => exact h.index digest c (hget.trans (congrArg some (Except.ok.inj hc)))
  · exact SlotStore.digest_eq h.store hc

theorem step_keyed (h : s.Keyed) (e : DagEvent) : (s.step e).1.Keyed := by
  cases e with
  | addCertificate cert =>
    refine ⟨fun digest c hc => ?_, ?_⟩
    · rcases Dag.certIndex_addCertificate hc with hold | ⟨rfl, rfl, -⟩
      · exact h.index digest c hold
      · rfl
    · rcases Dag.addCertificate_cases s.dag s.certStore cert with ⟨err, heq, -⟩ | ⟨-, heq⟩
      · rw [step, heq]
        exact h.store
      · rw [step, heq]
        exact SlotStore.sound_save cert h.store
  | setCommittedRound round => exact ⟨h.index, h.store⟩
  | pruneRound round =>
    exact ⟨fun digest c hc => h.index digest c (Dag.certIndex_pruneRound.mp hc).1, h.store⟩
  | pruneRoundsBefore round =>
    exact ⟨fun digest c hc => h.index digest c (Dag.certIndex_pruneRoundsBefore hc), h.store⟩
  | loadRound round =>
    refine ⟨fun digest c hc => ?_, h.store⟩
    rcases Dag.certIndex_loadRound hc with hold | ⟨-, hd⟩
    · exact h.index digest c hold
    · exact hd
  | causalHistory cert =>
    obtain ⟨cache, keys, heq⟩ := s.dag.sameRounds_causalHistory s.certStore cert
    refine ⟨fun digest c hc => ?_, h.store⟩
    rw [step, heq] at hc
    exact h.index digest c hc

theorem keyed_of_reach {ok : DagState CS → List DagOutput → DagEvent → Prop}
    {log : List DagOutput} (hreach : Reach SlotStore.sound ok s log) :
    s.dag.Keyed s.certStore := by
  refine Keyed.dag (Run.Reach.invariant (I := fun s _ => s.Keyed) ?_ ?_ hreach)
  · rintro s ⟨⟨cfg, hnew⟩, hsound⟩
    refine ⟨fun digest c hc => ?_, hsound⟩
    rw [hnew] at hc
    exact absurd hc GoMap.get_empty_ne
  · exact fun s _ e h _ => step_keyed h e

end DagState

namespace Dag

variable {CS : Type} [CertificateStore CS]

/-- Some path of this many parent references leads from one certificate to another, each
reference to a certificate that can be resolved. -/
def ParentPath (d : Dag) (certStore : CS) (cert : Certificate) (n : Nat) (c : Certificate) : Prop :=
  LevelSearch.Reaches parentDigests
    (LevelSearch.resolve Certificate.digest (d.findParent certStore) cert) cert n c

noncomputable def parentDistance (d : Dag) (certStore : CS) (cert c : Certificate) : Nat :=
  LevelSearch.distance parentDigests
    (LevelSearch.resolve Certificate.digest (d.findParent certStore) cert) cert c

theorem causalHistory_of_not_cached {d : Dag} {cert : Certificate}
    (h : d.historyCache.get cert.digest = none) (certStore : CS) :
    (d.causalHistory certStore cert).1 =
      LevelSearch.search Certificate.digest parentDigests (d.findParent certStore)
        d.cfg.maxHistoryDepth cert := by
  rw [causalHistory, h]

/-- A history that is not cached is what is fewer parent steps away than the depth, no
digest twice, from the certificate itself on and in the order of distance. -/
theorem causalHistory_eq_reachable (d : Dag) (certStore : CS) (hkeyed : d.Keyed certStore)
    (cert : Certificate) (hcache : d.historyCache.get cert.digest = none) :
    (∀ c, c ∈ (d.causalHistory certStore cert).1 ↔
      ∃ n < d.cfg.maxHistoryDepth, d.ParentPath certStore cert n c) ∧
    ((d.causalHistory certStore cert).1.map Certificate.digest).Nodup ∧
    (0 < d.cfg.maxHistoryDepth → (d.causalHistory certStore cert).1.head? = some cert) ∧
    (d.causalHistory certStore cert).1.Pairwise fun c c' =>
      d.parentDistance certStore cert c ≤ d.parentDistance certStore cert c' := by
  have hfind : ∀ digest c, d.findParent certStore digest = some c → c.digest = digest := by
    intro digest c hc
    unfold findParent at hc
    cases hget : d.getCertificate certStore digest with
    | error err =>
      rw [hget] at hc
      exact absurd hc (by simp [Except.toOption])
    | ok c' =>
      rw [hget] at hc
      rw [← Option.some.inj hc]
      exact hkeyed digest c' hget
  rw [causalHistory_of_not_cached hcache]
  obtain ⟨hmem, hnodup, hsorted⟩ := LevelSearch.search_spec parentDigests hfind
    d.cfg.maxHistoryDepth cert
  refine ⟨hmem, hnodup, fun hpos => ?_, hsorted⟩
  obtain ⟨depth, hdepth⟩ : ∃ depth, d.cfg.maxHistoryDepth = depth + 1 :=
    ⟨d.cfg.maxHistoryDepth - 1, by omega⟩
  rw [hdepth]
  exact LevelSearch.head_search depth cert

open DagState (twoRounds) in
/-- A certificate of the second round and the three of the first. -/
theorem causalHistory_twoRounds :
    (twoRounds.dag.causalHistory twoRounds.certStore
      (votedCertificate 1 1 [] (votedRound 0))).1.length = 4 ∧
    (∀ c, c ∈ (twoRounds.dag.causalHistory twoRounds.certStore
        (votedCertificate 1 1 [] (votedRound 0))).1 ↔
      ∃ n < 10, twoRounds.dag.ParentPath twoRounds.certStore
        (votedCertificate 1 1 [] (votedRound 0)) n c) := by
  obtain ⟨log, hreach⟩ := DagState.reach_twoRounds MemoryCertificateStore.sound_new
  have hdepth : twoRounds.dag.cfg.maxHistoryDepth = 10 := by decide +kernel
  have hhistory := causalHistory_eq_reachable twoRounds.dag twoRounds.certStore
    (DagState.keyed_of_reach hreach) (votedCertificate 1 1 [] (votedRound 0)) (by decide +kernel)
  rw [hdepth] at hhistory
  exact ⟨by decide +kernel, hhistory.1⟩

end Dag

end DagMempool
