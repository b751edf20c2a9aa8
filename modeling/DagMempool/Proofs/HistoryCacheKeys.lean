import DagMempool.Dag.Step
import DagMempool.Lib.InsertionOrder
import DagMempool.Store.MemoryCertificate
import DagMempool.Types.Ideal

/-!
# The keys of the history cache

The cache is a map and a list of its keys in the order in which they came. Every call that
touches one touches the other: a query puts its key at the end, after a full cache lost some
from the front, an addition filters both, a prune empties both. So the list has every key of
the map once, and what is evicted is what was put in first.
-/

namespace DagMempool

open InsertionOrder

namespace Dag

theorem cache_evictHistories (n : Nat) (d : Dag) :
    (evictHistories n d).historyCacheKeys = d.historyCacheKeys.drop n ∧
      (evictHistories n d).historyCache = d.historyCache.delAll (d.historyCacheKeys.take n) ∧
      (evictHistories n d).cfg = d.cfg := by
  induction n generalizing d with
  | zero => exact ⟨rfl, rfl, rfl⟩
  | succ n ih =>
    rw [evictHistories]
    cases hkeys : d.historyCacheKeys with
    | nil => exact ⟨hkeys, rfl, rfl⟩
    | cons oldKey keys =>
      exact ih { d with historyCacheKeys := keys, historyCache := d.historyCache.del oldKey }

/-- How many entries go before another one is put in. -/
def evictCount (d : Dag) : Nat :=
  if d.cfg.maxHistoryCacheSize ≤ d.historyCacheKeys.length then
    max 1 (d.cfg.maxHistoryCacheSize / 10)
  else 0

theorem makeRoom_eq {d : Dag} (hsize : 0 < d.cfg.maxHistoryCacheSize) :
    d.makeRoom = evictHistories d.evictCount d := by
  unfold makeRoom evictCount
  by_cases hfull : d.cfg.maxHistoryCacheSize ≤ d.historyCacheKeys.length
  · rw [if_pos ⟨hsize, hfull⟩, if_pos hfull]
    refine congrArg (evictHistories · d) ?_
    split <;> omega
  · rw [if_neg fun h => hfull h.2, if_neg hfull]
    rfl

/-! ## The list and the map

The log has every key that was put in, oldest first. The list is what is left of it, so its front
is what was put in first. -/

/-- The list has the keys of the map, in the order of the log, and not too many of them. -/
structure CacheListed (limit : Nat) (log : List Hash) (d : Dag) : Prop where
  limited : d.cfg.maxHistoryCacheSize = limit
  listed : ∀ k, k ∈ d.historyCacheKeys ↔ d.historyCache.has k = true
  order : InOrder log d.historyCacheKeys
  size : d.historyCacheKeys.length ≤ limit

namespace CacheListed

variable {limit : Nat} {log : List Hash} {d d' : Dag}

theorem of_eq (h : CacheListed limit log d) (hkeys : d'.historyCacheKeys = d.historyCacheKeys)
    (hcache : d'.historyCache = d.historyCache) (hcfg : d'.cfg = d.cfg) :
    CacheListed limit log d' where
  limited := by rw [hcfg, h.limited]
  listed k := by rw [hkeys, hcache, h.listed k]
  order := by rw [hkeys]; exact h.order
  size := by rw [hkeys]; exact h.size

theorem empty (hcfg : d.cfg.maxHistoryCacheSize = limit) (hkeys : d.historyCacheKeys = [])
    (hcache : d.historyCache = ∅) : CacheListed limit log d where
  limited := hcfg
  listed k := by
    rw [hkeys, hcache]
    simp [GoMap.has, GoMap.get_empty]
  order := by rw [hkeys]; exact .nil log
  size := by rw [hkeys]; exact Nat.zero_le _

theorem invalidate (h : CacheListed limit log d) (cert : Certificate) :
    CacheListed limit log (d.invalidateHistoryCacheForCertificate cert) := by
  have hsub : (d.invalidateHistoryCacheForCertificate cert).historyCacheKeys.Sublist
      d.historyCacheKeys := List.filter_sublist
  refine ⟨h.limited, fun k => ?_, h.order.sublist hsub, hsub.length_le.trans h.size⟩
  unfold invalidateHistoryCacheForCertificate
  rw [List.mem_filter, h.listed k, Bool.not_eq_true', ← Bool.not_eq_true,
    List.contains_iff_mem, GoMap.mem_keys]
  simp only [GoMap.has_iff, GoMap.get_filter_eq_some]
  constructor
  · rintro ⟨⟨history, hget⟩, hkept⟩
    refine ⟨history, hget, ?_⟩
    cases habove : historyAbove cert.round history with
    | false => rfl
    | true => exact absurd ⟨history, hget, habove⟩ hkept
  · rintro ⟨history, hget, hbelow⟩
    refine ⟨⟨history, hget⟩, ?_⟩
    rintro ⟨history', hget', habove⟩
    rw [hget] at hget'
    obtain rfl := Option.some.inj hget'
    rw [habove] at hbelow
    cases hbelow

theorem insertCertificate (h : CacheListed limit log d) (cert : Certificate) :
    CacheListed limit log (d.insertCertificate cert) := by
  refine invalidate (d := { d with rounds := _, certIndex := _, highestRound := _ }) ?_ cert
  exact h.of_eq rfl rfl rfl

theorem evict (h : CacheListed limit log d) (n : Nat) :
    CacheListed limit log (evictHistories n d) := by
  obtain ⟨hkeys, hcache, hcfg⟩ := cache_evictHistories n d
  have hnodup := h.order.nodup
  refine ⟨by rw [hcfg, h.limited], fun k => ?_, ?_, ?_⟩
  · rw [hkeys, hcache, GoMap.has, GoMap.get_delAll]
    rw [← List.take_append_drop n d.historyCacheKeys, List.nodup_append] at hnodup
    have hk := h.listed k
    rw [← List.take_append_drop n d.historyCacheKeys, List.mem_append, GoMap.has] at hk
    split
    · next htake =>
        refine iff_of_false (fun hdrop => ?_) (by simp)
        exact hnodup.2.2 k htake k hdrop rfl
    · next htake =>
        rw [← hk]
        simp [htake]
  · rw [hkeys]
    exact h.order.sublist (List.drop_sublist _ _)
  · rw [hkeys]
    exact (List.drop_sublist _ _).length_le.trans h.size

theorem room (h : CacheListed limit log d) (hsize : 0 < limit) :
    (d.historyCacheKeys.drop d.evictCount).length < limit := by
  have hle := h.size
  rw [List.length_drop]
  unfold evictCount
  rw [h.limited]
  split <;> omega

/-- A history that is put in: its key is not in the list, and goes to the end. -/
theorem cacheHistory (h : CacheListed limit log d) (hsize : 0 < limit)
    {digest : Hash} (hnew : d.historyCache.has digest = false) (history : List Certificate) :
    CacheListed limit (log ++ [digest]) (d.cacheHistory digest history) := by
  have hleft := h.evict d.evictCount
  obtain ⟨hkeys, -, -⟩ := cache_evictHistories d.evictCount d
  have habsent : digest ∉ (evictHistories d.evictCount d).historyCacheKeys := by
    rw [hkeys]
    intro hmem
    have hhas := (h.listed digest).mp (List.mem_of_mem_drop hmem)
    rw [hnew] at hhas
    cases hhas
  unfold Dag.cacheHistory
  rw [makeRoom_eq (h.limited ▸ hsize)]
  refine ⟨hleft.limited, fun k => ?_, hleft.order.concat habsent, ?_⟩
  · rw [List.mem_append, hleft.listed k, GoMap.has_set]
    simp [or_comm]
  · have hroom := h.room hsize
    rw [List.length_append, hkeys]
    exact hroom

/-- What a query that is not answered by the cache evicts was put in before what it leaves. -/
theorem evicted_first (h : CacheListed limit log d) (hsize : 0 < limit)
    {digest gone kept : Hash} (hnew : d.historyCache.has digest = false)
    (history : List Certificate)
    (hgone : d.historyCache.has gone = true ∧
      (d.cacheHistory digest history).historyCache.has gone = false)
    (hkept : d.historyCache.has kept = true ∧
      (d.cacheHistory digest history).historyCache.has kept = true) :
    InsertedBefore log gone kept := by
  have hput := h.cacheHistory hsize hnew history
  obtain ⟨hkeys, -, -⟩ := cache_evictHistories d.evictCount d
  have hafter : (d.cacheHistory digest history).historyCacheKeys =
      d.historyCacheKeys.drop d.evictCount ++ [digest] := by
    unfold Dag.cacheHistory
    rw [makeRoom_eq (h.limited ▸ hsize)]
    show (evictHistories d.evictCount d).historyCacheKeys ++ [digest] = _
    rw [hkeys]
  have hmem : ∀ k, d.historyCache.has k = true → k ∈ d.historyCacheKeys.take d.evictCount ∨
      k ∈ d.historyCacheKeys.drop d.evictCount := by
    intro k hk
    rw [← List.mem_append, List.take_append_drop]
    exact (h.listed k).mpr hk
  have hstays : ∀ k, d.historyCache.has k = true →
      ((d.cacheHistory digest history).historyCache.has k = true ↔
        k ∈ d.historyCacheKeys.drop d.evictCount) := by
    intro k hk
    have hne : k ≠ digest := by
      rintro rfl
      rw [hk] at hnew
      cases hnew
    rw [← hput.listed k, hafter, List.mem_append, List.mem_singleton, or_iff_left hne]
  have hdrop := (hstays kept hkept.1).mp hkept.2
  rcases hmem gone hgone.1 with htake | hleft
  · exact h.order.dropped htake hdrop
  · rw [(hstays gone hgone.1).mpr hleft] at hgone
    exact absurd hgone.2 (by simp)

end CacheListed

end Dag

namespace DagState

variable {CS : Type} [CertificateStore CS]

def cachedBy (s : DagState CS) : DagEvent → List Hash
  | .causalHistory cert => if s.dag.historyCache.has cert.digest then [] else [cert.digest]
  | _ => []

/-- A step of a DAG, with what it puts into the history cache as its output. -/
def cacheStep (s : DagState CS) (e : DagEvent) : DagState CS × List Hash :=
  ((s.step e).1, s.cachedBy e)

/-- Only a query that is not answered by the cache puts something in; all other calls leave
the cache, take something out, or empty it. -/
theorem cacheListed_step {limit : Nat} {s : DagState CS} {log : List Hash}
    (h : s.dag.CacheListed limit log) (hsize : 0 < limit) (e : DagEvent) :
    (s.cacheStep e).1.dag.CacheListed limit (log ++ (s.cacheStep e).2) := by
  cases e with
  | addCertificate cert =>
    show (s.dag.addCertificate s.certStore cert).2.1.CacheListed limit (log ++ [])
    have hround : (s.dag.ensureRound cert.round).CacheListed limit log := by
      unfold Dag.ensureRound
      split
      · exact h
      · exact h.of_eq rfl rfl rfl
    rw [List.append_nil]
    unfold Dag.addCertificate
    dsimp only
    split
    · exact hround
    · split
      · exact hround
      · exact hround.insertCertificate cert
  | setCommittedRound round => exact (List.append_nil log).symm ▸ h.of_eq rfl rfl rfl
  | pruneRound | pruneRoundsBefore => exact .empty h.limited rfl rfl
  | loadRound round =>
    show (s.dag.loadRound s.certStore round).2.CacheListed limit (log ++ [])
    rw [List.append_nil]
    unfold Dag.loadRound
    split
    · exact h
    · exact h.of_eq rfl rfl rfl
  | causalHistory cert =>
    show (s.dag.causalHistory s.certStore cert).2.CacheListed limit
      (log ++ if s.dag.historyCache.has cert.digest then [] else [cert.digest])
    unfold Dag.causalHistory
    cases hget : s.dag.historyCache.get cert.digest with
    | some cached =>
      rw [if_pos (GoMap.has_iff.mpr ⟨cached, hget⟩), List.append_nil]
      exact h
    | none =>
      have hnew : s.dag.historyCache.has cert.digest = false := by rw [GoMap.has, hget]; rfl
      rw [if_neg (by rw [hnew]; simp)]
      exact h.cacheHistory hsize hnew _

/-- After any calls on a new DAG with a cache of some size, over any store: the list has no key
twice, has those of the map, and not more than the size allows; and of the entries that are
cached, those that a query evicts were put in before those it leaves. -/
theorem historyCache_bookkeeping (cfg : DagConfig) (hsize : 0 < cfg.maxHistoryCacheSize)
    (certStore : CS) (events : List DagEvent) :
    let run := Run.exec cacheStep { dag := .new cfg, certStore } [] events
    let d := run.1.dag
    d.historyCacheKeys.Nodup ∧
      (∀ k, k ∈ d.historyCacheKeys ↔ k ∈ d.historyCache.keys) ∧
      d.historyCacheKeys.length ≤ cfg.maxHistoryCacheSize ∧
      ∀ cert gone kept,
        let d' := (d.causalHistory run.1.certStore cert).2
        (d.historyCache.has gone = true ∧ d'.historyCache.has gone = false) →
        (d.historyCache.has kept = true ∧ d'.historyCache.has kept = true) →
        InsertedBefore run.2 gone kept := by
  have hrun : Dag.CacheListed cfg.maxHistoryCacheSize
      (Run.exec cacheStep ({ dag := .new cfg, certStore } : DagState CS) [] events).2
      (Run.exec cacheStep ({ dag := .new cfg, certStore } : DagState CS) [] events).1.dag :=
    Run.exec_invariant
      (I := fun (s : DagState CS) log => s.dag.CacheListed cfg.maxHistoryCacheSize log)
      (fun s log e h => cacheListed_step h hsize e) (.empty rfl rfl rfl) events
  refine ⟨hrun.order.nodup, fun k => ?_, hrun.size, ?_⟩
  · rw [GoMap.mem_keys]
    exact hrun.listed k
  · intro cert gone kept d' hgone hkept
    dsimp only [d'] at hgone hkept
    unfold Dag.causalHistory at hgone hkept
    cases hget : (Run.exec cacheStep ({ dag := .new cfg, certStore } : DagState CS) []
        events).1.dag.historyCache.get cert.digest with
    | some cached =>
      rw [hget] at hgone
      rw [hgone.1] at hgone
      exact absurd hgone.2 (by simp)
    | none =>
      rw [hget] at hgone hkept
      exact hrun.evicted_first hsize (by rw [GoMap.has, hget]; rfl) _ hgone hkept

def twoAsked : DagState MemoryCertificateStore × List Hash :=
  Run.exec cacheStep
    { dag := .new { maxHistoryDepth := 8, maxHistoryCacheSize := 2 }, certStore := .new } []
    [.causalHistory (votedCertificate 1 0 [] []), .causalHistory (votedCertificate 2 0 [] [])]

/-- A third query evicts the first history and leaves the second. -/
theorem historyCache_bookkeeping_third :
    let asked := twoAsked.1.dag.causalHistory twoAsked.1.certStore (votedCertificate 3 0 [] [])
    asked.2.historyCache.has (votedCertificate 1 0 [] []).digest = false ∧
      asked.2.historyCache.has (votedCertificate 2 0 [] []).digest = true ∧
      InsertedBefore twoAsked.2 (votedCertificate 1 0 [] []).digest
        (votedCertificate 2 0 [] []).digest := by
  refine ⟨by decide +kernel, by decide +kernel, ?_⟩
  exact (historyCache_bookkeeping { maxHistoryDepth := 8, maxHistoryCacheSize := 2 } (by decide)
    MemoryCertificateStore.new [.causalHistory (votedCertificate 1 0 [] []),
      .causalHistory (votedCertificate 2 0 [] [])]).2.2.2 (votedCertificate 3 0 [] []) _ _
    ⟨by decide +kernel, by decide +kernel⟩ ⟨by decide +kernel, by decide +kernel⟩

end DagState

end DagMempool
