import DagMempool.Lib.GoMap

/-!
# A map with an index by rank

Values are stored under a key of their own, and next to them, for each rank, the
keys of the values of that rank in the order they came. The two maps agree: a key
is listed under a rank exactly when a value of that rank is stored under it, and
a value is stored under its own key. The agreement is part of the structure, so
the two operations that change it (insert under a free key, drop all values of
certain ranks) cannot leave it broken, and every question about the index turns
into one about the values stored.
-/

/-- `items` by `key`, and the keys of each `rank`. -/
structure RankIndex {K R V : Type} [DecidableEq K] [DecidableEq R]
    (key : V → K) (rank : V → R) where
  items : GoMap K V
  byRank : GoMap R (List K)
  keyed : ∀ {k v}, items.get k = some v → key v = k
  listed : ∀ {k v}, items.get k = some v → ∃ ks, byRank.get (rank v) = some ks ∧ k ∈ ks
  stored : ∀ {r ks k}, byRank.get r = some ks → k ∈ ks →
    ∃ v, items.get k = some v ∧ rank v = r

namespace RankIndex

variable {K R V : Type} [DecidableEq K] [DecidableEq R] {key : V → K} {rank : V → R}

def empty : RankIndex key rank where
  items := ∅
  byRank := ∅
  keyed h := absurd h (by simp)
  listed h := absurd h (by simp)
  stored h := absurd h (by simp)

/-- Store a value under its key, which must be free, and list the key last. -/
def insert (ix : RankIndex key rank) (v : V) (hfree : ix.items.get (key v) = none) :
    RankIndex key rank where
  items := ix.items.set (key v) v
  byRank := ix.byRank.set (rank v) ((ix.byRank.get (rank v)).getD [] ++ [key v])
  keyed := by
    intro k v' hget
    rcases GoMap.get_set_eq_some hget with ⟨rfl, rfl⟩ | ⟨-, hold⟩
    · rfl
    · exact ix.keyed hold
  listed := by
    intro k v' hget
    rw [GoMap.get_set]
    rcases GoMap.get_set_eq_some hget with ⟨rfl, rfl⟩ | ⟨-, hold⟩
    · exact ⟨_, if_pos rfl, by simp⟩
    · obtain ⟨ks, hks, hk⟩ := ix.listed hold
      by_cases hr : rank v' = rank v
      · refine ⟨_, if_pos hr, ?_⟩
        rw [← hr, hks]
        simp [hk]
      · exact ⟨ks, by rw [if_neg hr]; exact hks, hk⟩
  stored := by
    intro r ks k hks hk
    -- A key listed before belongs to a stored value, hence is not the new one.
    have hne : ∀ {v'}, ix.items.get k = some v' → k ≠ key v := by
      intro v' hv' he
      rw [he, hfree] at hv'
      cases hv'
    rcases GoMap.get_set_eq_some hks with ⟨rfl, rfl⟩ | ⟨-, hold⟩
    · rcases List.mem_append.mp hk with hk | hk
      · cases hr : ix.byRank.get (rank v) with
        | none => rw [hr] at hk; cases hk
        | some ks' =>
          rw [hr] at hk
          obtain ⟨v', hv', hrank⟩ := ix.stored hr hk
          exact ⟨v', by rw [GoMap.get_set_ne (hne hv')]; exact hv', hrank⟩
      · rw [List.mem_singleton] at hk
        subst hk
        exact ⟨v, GoMap.get_set_self _ _ _, rfl⟩
    · obtain ⟨v', hv', hrank⟩ := ix.stored hold hk
      exact ⟨v', by rw [GoMap.get_set_ne (hne hv')]; exact hv', hrank⟩

/-- The values listed under a rank. -/
def atRank (ix : RankIndex key rank) (r : R) : List V :=
  ((ix.byRank.get r).getD []).filterMap ix.items.get

variable {ix : RankIndex key rank}

theorem mem_atRank {r : R} {v : V} :
    v ∈ ix.atRank r ↔ ix.items.get (key v) = some v ∧ rank v = r := by
  rw [atRank, List.mem_filterMap]
  constructor
  · rintro ⟨k, hk, hv⟩
    cases hr : ix.byRank.get r with
    | none => rw [hr] at hk; cases hk
    | some ks =>
      rw [hr] at hk
      obtain ⟨v', hv', hrank⟩ := ix.stored hr hk
      rw [hv] at hv'
      cases hv'
      exact ⟨by rw [ix.keyed hv]; exact hv, hrank⟩
  · rintro ⟨hv, rfl⟩
    obtain ⟨ks, hks, hk⟩ := ix.listed hv
    exact ⟨key v, by rw [hks]; exact hk, hv⟩

/-- The keys listed under the ranks a predicate selects. -/
def keysOf (ix : RankIndex key rank) (p : R → Bool) : List K :=
  (ix.byRank.filter fun r _ => p r).values.flatten

theorem mem_keysOf {p : R → Bool} {k : K} {v : V} (hv : ix.items.get k = some v) :
    k ∈ ix.keysOf p ↔ p (rank v) = true := by
  rw [keysOf, List.mem_flatten]
  constructor
  · rintro ⟨ks, hks, hk⟩
    obtain ⟨r, hr⟩ := GoMap.mem_values.mp hks
    obtain ⟨hget, hp⟩ := GoMap.get_filter_eq_some.mp hr
    obtain ⟨v', hv', rfl⟩ := ix.stored hget hk
    rw [hv] at hv'
    cases hv'
    exact hp
  · intro hp
    obtain ⟨ks, hks, hk⟩ := ix.listed hv
    exact ⟨ks, GoMap.mem_values.mpr ⟨rank v, GoMap.get_filter_eq_some.mpr ⟨hks, hp⟩⟩, hk⟩

/-- Delete the values of the ranks selected, then the lists of those ranks. -/
def drop (ix : RankIndex key rank) (p : R → Bool) : RankIndex key rank where
  items := ix.items.delAll (ix.keysOf p)
  byRank := ix.byRank.filter fun r _ => !p r
  keyed := by
    intro k v hget
    exact ix.keyed (GoMap.get_delAll_eq_some.mp hget).2
  listed := by
    intro k v hget
    obtain ⟨hkeep, hv⟩ := GoMap.get_delAll_eq_some.mp hget
    rw [mem_keysOf hv, Bool.not_eq_true] at hkeep
    obtain ⟨ks, hks, hk⟩ := ix.listed hv
    exact ⟨ks, GoMap.get_filter_eq_some.mpr ⟨hks, by rw [hkeep]; rfl⟩, hk⟩
  stored := by
    intro r ks k hks hk
    obtain ⟨hget, hp⟩ := GoMap.get_filter_eq_some.mp hks
    obtain ⟨v, hv, rfl⟩ := ix.stored hget hk
    refine ⟨v, GoMap.get_delAll_eq_some.mpr ⟨?_, hv⟩, rfl⟩
    rw [mem_keysOf hv]
    simpa using hp

theorem get_drop {p : R → Bool} {k : K} {v : V} :
    (ix.drop p).items.get k = some v ↔ ix.items.get k = some v ∧ p (rank v) = false := by
  rw [show (ix.drop p).items = ix.items.delAll (ix.keysOf p) from rfl,
    GoMap.get_delAll_eq_some]
  constructor
  · rintro ⟨hkeep, hv⟩
    rw [mem_keysOf hv, Bool.not_eq_true] at hkeep
    exact ⟨hv, hkeep⟩
  · rintro ⟨hv, hp⟩
    refine ⟨?_, hv⟩
    rw [mem_keysOf hv, hp]
    simp

theorem byRank_drop (ix : RankIndex key rank) (p : R → Bool) (r : R) :
    (ix.drop p).byRank.get r = if p r then none else ix.byRank.get r := by
  have hranks : (ix.drop p).byRank = ix.byRank.filter fun r _ => !p r := rfl
  rw [hranks, GoMap.get_filter]
  cases ix.byRank.get r with
  | none => simp
  | some ks => cases p r <;> simp

theorem drop_drop (ix : RankIndex key rank) (p : R → Bool) : (ix.drop p).drop p = ix.drop p := by
  have hkept : ∀ {r ks}, (ix.drop p).byRank.get r = some ks → p r = false := by
    intro r ks hks
    rw [byRank_drop] at hks
    split at hks
    · cases hks
    · next hp => exact Bool.eq_false_iff.mpr hp
  have hkeys : (ix.drop p).keysOf p = [] := by
    rw [keysOf, GoMap.values_filter_eq_nil hkept]
    rfl
  have hitems : ((ix.drop p).drop p).items = (ix.drop p).items := by
    show (ix.drop p).items.delAll ((ix.drop p).keysOf p) = _
    rw [hkeys]
    rfl
  have hranks : ((ix.drop p).drop p).byRank = (ix.drop p).byRank := by
    show (ix.drop p).byRank.filter (fun r _ => !p r) = _
    exact GoMap.filter_eq_self fun hks => by simp [hkept hks]
  generalize (ix.drop p).drop p = twice at hitems hranks ⊢
  generalize ix.drop p = once at hitems hranks ⊢
  cases twice
  cases once
  cases hitems
  cases hranks
  rfl

/-! ## Counting a rank

The keys of a rank are a list, and the structure does not say that a key is in it once
only. Where it is, the values of a rank are counted by their keys. -/

/-- No key is listed twice. -/
def Distinct (ix : RankIndex key rank) : Prop :=
  ∀ r ks, ix.byRank.get r = some ks → ks.Nodup

theorem distinct_empty : (empty : RankIndex key rank).Distinct := by
  intro r ks hks
  exact absurd hks GoMap.get_empty_ne

theorem Distinct.insert (h : ix.Distinct) {v : V} (hfree : ix.items.get (key v) = none) :
    (ix.insert v hfree).Distinct := by
  intro r ks hks
  rcases GoMap.get_set_eq_some hks with ⟨rfl, rfl⟩ | ⟨-, hold⟩
  · cases hr : ix.byRank.get (rank v) with
    | none => simp
    | some ks' =>
      rw [Option.getD_some, List.nodup_append]
      refine ⟨h _ _ hr, List.nodup_singleton _, fun k hk k' hk' he => ?_⟩
      rw [List.mem_singleton.mp hk'] at he
      obtain ⟨v', hv', -⟩ := ix.stored hr hk
      rw [he, hfree] at hv'
      cases hv'
  · exact h r ks hold

theorem Distinct.drop (h : ix.Distinct) (p : R → Bool) : (ix.drop p).Distinct :=
  fun r ks hks => h r ks (GoMap.get_filter_eq_some.mp hks).1

theorem map_key_atRank (ix : RankIndex key rank) (r : R) :
    (ix.atRank r).map key = (ix.byRank.get r).getD [] := by
  have hall : ∀ ks : List K, (∀ k ∈ ks, ∃ v, ix.items.get k = some v) →
      (ks.filterMap ix.items.get).map key = ks := by
    intro ks
    induction ks with
    | nil => exact fun _ => rfl
    | cons k ks ih =>
      intro hks
      obtain ⟨v, hv⟩ := hks k List.mem_cons_self
      rw [List.filterMap_cons_some hv, List.map_cons, ix.keyed hv,
        ih fun k' hk' => hks k' (List.mem_cons_of_mem _ hk')]
  refine hall _ fun k hk => ?_
  cases hr : ix.byRank.get r with
  | none => rw [hr] at hk; cases hk
  | some ks =>
    rw [hr] at hk
    obtain ⟨v, hv, -⟩ := ix.stored hr hk
    exact ⟨v, hv⟩

theorem Distinct.nodup_atRank (h : ix.Distinct) (r : R) : ((ix.atRank r).map key).Nodup := by
  rw [map_key_atRank]
  cases hr : ix.byRank.get r with
  | none => simp
  | some ks => exact h r ks hr

end RankIndex
