import Mathlib.Data.List.AList
import Mathlib.Data.List.Perm.Basic

/-!
# Go maps, and the order a `range` loop visits them in

A Go map is a finite partial function, and Mathlib's `AList` is exactly that
with its entries in some list. `get`, `set` and `del` are the three primitive
operations of the language under its own words; what is added is what programs
do with a map besides: delete every entry a predicate picks, and walk over it.

The language leaves the order of a walk open, and may pick another one each
time. `IterOrder` is one such choice for the lists of one element type: any
function that permutes its argument. A definition that ranges over a map takes
an `IterOrder`, and a theorem about it quantifies over all of them.
-/

/-- A Go map: distinct keys, one value each. -/
def GoMap (K V : Type) : Type := AList (fun _ : K => V)

namespace GoMap

variable {K V : Type}

/-- `make(map[K]V)`. -/
def empty : GoMap K V := (∅ : AList (fun _ : K => V))

instance : EmptyCollection (GoMap K V) := ⟨empty⟩

instance : Inhabited (GoMap K V) := ⟨empty⟩

/-- The entries, in the order they happen to be listed. -/
def entries (m : GoMap K V) : List (Σ _ : K, V) := AList.entries m

/-- The values of a map, in the order its entries happen to be listed. -/
def values (m : GoMap K V) : List V := m.entries.map fun e => e.2

/-- The keys of a map, in the order its entries happen to be listed. -/
def keys (m : GoMap K V) : List K := m.entries.map fun e => e.1

/-- `len(m)`. -/
def len (m : GoMap K V) : Nat := m.entries.length

/-- `delete(m, k)` for every entry the predicate rejects. -/
def filter (p : K → V → Bool) (m : GoMap K V) : GoMap K V :=
  { entries := m.entries.filter fun e => p e.1 e.2
    nodupKeys := (AList.nodupKeys m).sublist List.filter_sublist : AList (fun _ : K => V) }

/-- Every value replaced by a function of its key and itself. -/
def map (f : K → V → V) (m : GoMap K V) : GoMap K V :=
  { entries := m.entries.map fun e => ⟨e.1, f e.1 e.2⟩
    nodupKeys := by
      have hkeys : (m.entries.map fun e => (⟨e.1, f e.1 e.2⟩ : Σ _ : K, V)).keys =
          m.entries.keys := by simp [List.keys, Function.comp_def]
      rw [List.NodupKeys, hkeys]
      exact AList.nodupKeys m : AList (fun _ : K => V) }

theorem nodup_keys (m : GoMap K V) : m.keys.Nodup := AList.nodupKeys m

variable [DecidableEq K]

/-- `v, ok := m[k]`. -/
def get (m : GoMap K V) (k : K) : Option V := AList.lookup k m

/-- `m[k] = v`. -/
def set (m : GoMap K V) (k : K) (v : V) : GoMap K V := AList.insert k v m

/-- `delete(m, k)`. -/
def del (m : GoMap K V) (k : K) : GoMap K V := AList.erase k m

/-- `_, ok := m[k]`. -/
def has (m : GoMap K V) (k : K) : Bool := (m.get k).isSome

/-- `delete(m, k)` for every key of a list. -/
def delAll (m : GoMap K V) (ks : List K) : GoMap K V := ks.foldl del m

variable {m : GoMap K V} {k : K} {v : V} {p : K → V → Bool}

theorem get_eq_some : m.get k = some v ↔ (⟨k, v⟩ : Σ _ : K, V) ∈ m.entries :=
  AList.mem_lookup_iff

@[simp] theorem get_empty (k : K) : (∅ : GoMap K V).get k = none :=
  AList.lookup_empty k

theorem get_empty_ne {k : K} {v : V} : (∅ : GoMap K V).get k ≠ some v := by simp

theorem get_set (m : GoMap K V) (k k' : K) (v : V) :
    (m.set k v).get k' = if k' = k then some v else m.get k' := by
  split
  · next h => subst h; exact AList.lookup_insert m
  · next h => exact AList.lookup_insert_ne h

@[simp] theorem get_set_self (m : GoMap K V) (k : K) (v : V) :
    (m.set k v).get k = some v := by
  rw [get_set, if_pos rfl]

theorem get_set_ne {k k' : K} (h : k' ≠ k) : (m.set k v).get k' = m.get k' := by
  rw [get_set, if_neg h]

theorem get_del (m : GoMap K V) (k k' : K) :
    (m.del k).get k' = if k' = k then none else m.get k' := by
  split
  · next h => subst h; exact AList.lookup_erase k' m
  · next h => exact AList.lookup_erase_ne h

theorem get_filter_eq_some : (m.filter p).get k = some v ↔ m.get k = some v ∧ p k v = true := by
  rw [get_eq_some, get_eq_some]
  exact List.mem_filter

theorem get_filter (p : K → V → Bool) (m : GoMap K V) (k : K) :
    (m.filter p).get k = (m.get k).filter (p k) := by
  ext v
  rw [get_filter_eq_some, Option.filter_eq_some_iff]

theorem filter_eq_self (h : ∀ {k v}, m.get k = some v → p k v = true) : m.filter p = m :=
  AList.ext (List.filter_eq_self.mpr fun _ he => h (get_eq_some.mpr he))

theorem values_filter_eq_nil (h : ∀ {k v}, m.get k = some v → p k v = false) :
    (m.filter p).values = [] := by
  have hnone : (m.filter p).entries = [] :=
    List.filter_eq_nil_iff.mpr fun e he => by simp [h (get_eq_some.mpr he)]
  rw [values, hnone]
  rfl

theorem get_filter_cases (p : K → V → Bool) (m : GoMap K V) (k : K) :
    (m.filter p).get k = m.get k ∨ (m.filter p).get k = none := by
  rw [get_filter]
  cases m.get k with
  | none => exact .inl rfl
  | some v =>
    rw [Option.filter_some]
    split
    · exact .inl rfl
    · exact .inr rfl

theorem get_map_eq_some {f : K → V → V} :
    (m.map f).get k = some v ↔ ∃ v', m.get k = some v' ∧ v = f k v' := by
  rw [get_eq_some]
  constructor
  · intro h
    obtain ⟨⟨k', v'⟩, hmem, heq⟩ := List.mem_map.mp h
    cases heq
    exact ⟨v', get_eq_some.mpr hmem, rfl⟩
  · rintro ⟨v', hv', rfl⟩
    exact List.mem_map.mpr ⟨⟨k, v'⟩, get_eq_some.mp hv', rfl⟩

/-- What a map answers after an assignment, read backwards. -/
theorem get_set_eq_some {k k' : K} {v v' : V} (h : (m.set k v).get k' = some v') :
    (k' = k ∧ v' = v) ∨ (k' ≠ k ∧ m.get k' = some v') := by
  rw [get_set] at h
  split at h
  · next hk => exact .inl ⟨hk, (Option.some.inj h).symm⟩
  · next hk => exact .inr ⟨hk, h⟩

theorem get_del_eq_some {k k' : K} : (m.del k).get k' = some v ↔ k' ≠ k ∧ m.get k' = some v := by
  rw [get_del]
  split
  · next h => simp [h]
  · next h => simp [h]

theorem get_delAll (m : GoMap K V) (ks : List K) (k : K) :
    (m.delAll ks).get k = if k ∈ ks then none else m.get k := by
  induction ks generalizing m with
  | nil => simp [delAll]
  | cons x xs ih =>
    have hstep : m.delAll (x :: xs) = (m.del x).delAll xs := rfl
    rw [hstep, ih, get_del]
    by_cases hx : k = x
    · subst hx; simp
    · simp [hx]

theorem get_delAll_eq_some {ks : List K} :
    (m.delAll ks).get k = some v ↔ k ∉ ks ∧ m.get k = some v := by
  rw [get_delAll]
  split
  · next h => simp [h]
  · next h => simp [h]

theorem mem_values : v ∈ m.values ↔ ∃ k, m.get k = some v := by
  simp only [values, List.mem_map]
  constructor
  · rintro ⟨⟨k, v'⟩, hmem, rfl⟩
    exact ⟨k, get_eq_some.mpr hmem⟩
  · rintro ⟨k, hk⟩
    exact ⟨⟨k, v⟩, get_eq_some.mp hk, rfl⟩

theorem mem_values_of_set {v v' : V} (h : v' ∈ (m.set k v).values) : v' = v ∨ v' ∈ m.values := by
  obtain ⟨k', hk'⟩ := mem_values.mp h
  rcases get_set_eq_some hk' with ⟨-, rfl⟩ | ⟨-, hold⟩
  · exact .inl rfl
  · exact .inr (mem_values.mpr ⟨k', hold⟩)

theorem mem_values_of_del (h : v ∈ (m.del k).values) : v ∈ m.values := by
  obtain ⟨k', hk'⟩ := mem_values.mp h
  exact mem_values.mpr ⟨k', (get_del_eq_some.mp hk').2⟩

theorem map_values_eq_keys {f : V → K} (h : ∀ k v, m.get k = some v → f v = k) :
    m.values.map f = m.keys := by
  rw [values, keys, List.map_map]
  exact List.map_congr_left fun e he => h e.1 e.2 (get_eq_some.mpr he)

theorem has_iff : m.has k = true ↔ ∃ v, m.get k = some v := by
  rw [has, Option.isSome_iff_exists]

theorem mem_keys : k ∈ m.keys ↔ m.has k = true := by
  rw [has_iff, keys, List.mem_map]
  constructor
  · rintro ⟨⟨k', v⟩, hmem, rfl⟩
    exact ⟨v, get_eq_some.mpr hmem⟩
  · rintro ⟨v, hv⟩
    exact ⟨⟨k, v⟩, get_eq_some.mp hv, rfl⟩

theorem len_congr {m m' : GoMap K V} (h : ∀ k, m.get k = m'.get k) : m.len = m'.len := by
  have hperm : m.keys.Perm m'.keys := by
    refine (List.perm_ext_iff_of_nodup (nodup_keys m) (nodup_keys m')).mpr fun k => ?_
    rw [mem_keys, mem_keys, has, has, h]
  have hlen := hperm.length_eq
  rwa [keys, keys, List.length_map, List.length_map] at hlen

theorem len_del (h : m.get k = some v) : (m.del k).len + 1 = m.len := by
  have hmem : k ∈ m.entries.keys := List.mem_keys.mpr ⟨v, get_eq_some.mp h⟩
  have hlen : (m.del k).entries.keys.length = m.entries.keys.length - 1 := by
    show (m.entries.kerase k).keys.length = m.entries.keys.length - 1
    rw [List.keys_kerase, List.length_erase_of_mem hmem]
  have hpos := List.length_pos_of_mem hmem
  simp only [List.keys, List.length_map] at hlen hpos
  rw [len, len]
  omega

theorem del_of_get_none (h : m.get k = none) : m.del k = m := by
  refine AList.ext (List.kerase_of_notMem_keys fun hmem => ?_)
  obtain ⟨v, hv⟩ := List.mem_keys.mp hmem
  exact absurd ((get_eq_some.mpr hv).symm.trans h) (by simp)

theorem values_set (m : GoMap K V) (k : K) (v : V) :
    (m.set k v).values = v :: (m.del k).values := rfl

theorem len_set_of_get_none (h : m.get k = none) (v : V) : (m.set k v).len = m.len + 1 := by
  have hset : (m.set k v).len = (m.del k).len + 1 := rfl
  rw [hset, del_of_get_none h]

theorem len_le_set (m : GoMap K V) (k : K) (v : V) : m.len ≤ (m.set k v).len := by
  cases hget : m.get k with
  | none => rw [len_set_of_get_none hget]; exact Nat.le_succ _
  | some v' =>
    have hset : (m.set k v).len = (m.del k).len + 1 := rfl
    rw [hset, len_del hget]

theorem len_set_le (m : GoMap K V) (k : K) (v : V) : (m.set k v).len ≤ m.len + 1 := by
  cases hget : m.get k with
  | none => exact Nat.le_of_eq (len_set_of_get_none hget v)
  | some v' =>
    have hset : (m.set k v).len = (m.del k).len + 1 := rfl
    rw [hset, len_del hget]
    exact Nat.le_succ _

theorem len_le_of_has {W : Type} {m' : GoMap K W} (h : ∀ k, m.has k = true → m'.has k = true) :
    m.len ≤ m'.len := by
  have hsub : m.keys ⊆ m'.keys := fun k hk => mem_keys.mpr (h k (mem_keys.mp hk))
  have hlen := (List.subperm_of_subset (nodup_keys m) hsub).length_le
  rwa [keys, keys, List.length_map, List.length_map] at hlen

theorem len_eq_zero_iff : m.len = 0 ↔ ∀ k, m.has k = false := by
  constructor
  · intro h k
    have hkeys : m.keys = [] := by
      rw [keys, List.map_eq_nil_iff]
      exact List.length_eq_zero_iff.mp h
    have hnot : k ∉ m.keys := by simp [hkeys]
    rwa [mem_keys, Bool.not_eq_true] at hnot
  · intro h
    have hle : m.len ≤ (∅ : GoMap K V).len := len_le_of_has fun k hk => by simp [h k] at hk
    exact Nat.le_zero.mp hle

theorem values_perm (h : m.get k = some v) : m.values.Perm (v :: (m.del k).values) := by
  obtain ⟨v', l₁, l₂, -, hl, herase⟩ :=
    List.exists_of_kerase (List.mem_keys.mpr ⟨v, get_eq_some.mp h⟩)
  have hv' : (⟨k, v'⟩ : Σ _ : K, V) ∈ m.entries := by
    rw [hl]
    simp
  obtain rfl : v = v' := Option.some.inj (h.symm.trans (get_eq_some.mpr hv'))
  have hdel : (m.del k).entries = l₁ ++ l₂ := herase
  rw [values, values, hdel, hl, List.map_append, List.map_append, List.map_cons]
  exact List.perm_middle

theorem has_set {k k' : K} : (m.set k v).has k' = true ↔ k' = k ∨ m.has k' = true := by
  simp only [has_iff, get_set]
  by_cases h : k' = k <;> simp [h]

theorem has_del {k k' : K} : (m.del k).has k' = true ↔ k' ≠ k ∧ m.has k' = true := by
  simp only [has_iff, get_del]
  by_cases h : k' = k <;> simp [h]

theorem has_filter : (m.filter p).has k = true ↔ ∃ v, m.get k = some v ∧ p k v = true := by
  simp only [has_iff, get_filter_eq_some]

theorem values_perm_of_get {m m' : GoMap K V} (h : ∀ k, m.get k = m'.get k) :
    m.values.Perm m'.values := by
  refine List.Perm.map _ (List.lookup_ext (AList.nodupKeys m) (AList.nodupKeys m') ?_)
  intro k v
  rw [show m.entries.dlookup k = m'.entries.dlookup k from h k]

theorem delAll_concat (m : GoMap K V) (ks : List K) (k : K) :
    m.delAll (ks ++ [k]) = (m.delAll ks).del k := by
  rw [delAll, List.foldl_append]
  rfl

/-- Entries written one after the other, those for one key all alike. -/
theorem get_foldl_set {ε : Type} (key : ε → K) (value : ε → V) {es : List ε} {o : Option V}
    (hsame : ∀ e ∈ es, key e = k → some (value e) = o)
    (hnone : (∀ e ∈ es, key e ≠ k) → m.get k = o) :
    (es.foldl (fun m e => m.set (key e) (value e)) m).get k = o := by
  induction es generalizing m with
  | nil => exact hnone (by simp)
  | cons e es ih =>
    refine ih (fun e' he' => hsame e' (List.mem_cons_of_mem _ he')) fun hes => ?_
    rw [get_set]
    split
    · next hk => exact hsame e List.mem_cons_self hk.symm
    · next hk =>
        refine hnone fun e' he' => ?_
        rcases List.mem_cons.mp he' with rfl | he'
        · exact Ne.symm hk
        · exact hes e' he'

end GoMap

/-- One way to walk over a map: some permutation of each list of entries. -/
structure IterOrder (α : Type) where
  /-- The order the loop visits the entries in. -/
  arrange : List α → List α
  /-- Every entry is visited, and visited once. -/
  perm : ∀ l, (arrange l).Perm l

namespace IterOrder

variable {α : Type}

/-- The walk that visits entries as they are listed. -/
def listed : IterOrder α := ⟨fun l => l, fun l => .refl l⟩

theorem mem_arrange (o : IterOrder α) {l : List α} {a : α} :
    a ∈ o.arrange l ↔ a ∈ l :=
  (o.perm l).mem_iff

theorem length_arrange (o : IterOrder α) (l : List α) :
    (o.arrange l).length = l.length :=
  (o.perm l).length_eq

end IterOrder
