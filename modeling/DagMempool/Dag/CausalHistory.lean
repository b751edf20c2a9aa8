import DagMempool.Dag.Dag
import DagMempool.Lib.LevelSearch

/-!
# Causal histories

`CausalHistory` walks the parent references of a certificate level by level, and keeps
what it found in a cache that drops its oldest entries when it is full. References are
marked before they are looked up, so one that cannot be resolved is looked up once.
-/

namespace DagMempool

namespace Dag

/-- The digests a certificate refers to. -/
def parentDigests (c : Certificate) : List Hash := c.header.parents.map (·.digest)

/-- The oldest entries of the history cache dropped, as many as asked for. -/
def evictHistories : Nat → Dag → Dag
  | 0, d => d
  | n + 1, d =>
    match d.historyCacheKeys with
    | [] => d
    | oldKey :: keys =>
      evictHistories n
        { d with historyCacheKeys := keys, historyCache := d.historyCache.del oldKey }

/-- A full cache first loses a tenth of its size, one entry at least. -/
def makeRoom (d : Dag) : Dag :=
  if 0 < d.cfg.maxHistoryCacheSize ∧ d.cfg.maxHistoryCacheSize ≤ d.historyCacheKeys.length then
    let evictCount := d.cfg.maxHistoryCacheSize / 10
    evictHistories (if evictCount < 1 then 1 else evictCount) d
  else d

def cacheHistory (d : Dag) (digest : Hash) (result : List Certificate) : Dag :=
  let d := d.makeRoom
  { d with
    historyCache := d.historyCache.set digest result
    historyCacheKeys := d.historyCacheKeys ++ [digest] }

variable {CS : Type} [CertificateStore CS]

/-- A parent as `GetCertificate` has it, if it has it. -/
def findParent (d : Dag) (certStore : CS) (digest : Hash) : Option Certificate :=
  (d.getCertificate certStore digest).toOption

def causalHistory (d : Dag) (certStore : CS) (cert : Certificate) : List Certificate × Dag :=
  match d.historyCache.get cert.digest with
  | some cached => (cached, d)
  | none =>
    let result := LevelSearch.search Certificate.digest parentDigests (d.findParent certStore)
      d.cfg.maxHistoryDepth cert
    (result, d.cacheHistory cert.digest result)

/-! ## Only the cache changes -/

/-- Two DAGs that differ in their history caches at most. -/
def SameRounds (d d' : Dag) : Prop :=
  ∃ cache keys, d' = { d with historyCache := cache, historyCacheKeys := keys }

theorem SameRounds.refl (d : Dag) : d.SameRounds d := ⟨_, _, rfl⟩

theorem sameRounds_evictHistories (n : Nat) (d : Dag) : d.SameRounds (evictHistories n d) := by
  induction n generalizing d with
  | zero => exact .refl d
  | succ n ih =>
    rw [evictHistories]
    split
    · exact .refl d
    · next oldKey keys _ =>
        obtain ⟨cache, keys', heq⟩ :=
          ih { d with historyCacheKeys := keys, historyCache := d.historyCache.del oldKey }
        exact ⟨cache, keys', heq⟩

theorem sameRounds_causalHistory (d : Dag) (certStore : CS) (cert : Certificate) :
    d.SameRounds (d.causalHistory certStore cert).2 := by
  unfold causalHistory
  split
  · exact .refl d
  · have hroom : d.SameRounds d.makeRoom := by
      unfold makeRoom
      split
      · exact sameRounds_evictHistories _ d
      · exact .refl d
    obtain ⟨cache, keys, hroom⟩ := hroom
    unfold cacheHistory
    rw [hroom]
    exact ⟨_, _, rfl⟩

theorem SameRounds.slot {d d' : Dag} (h : d.SameRounds d') (r : UInt64) (a : UInt16) :
    d'.slot r a = d.slot r a := by
  obtain ⟨cache, keys, rfl⟩ := h
  rfl

end Dag

end DagMempool
