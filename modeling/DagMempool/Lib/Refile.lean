import DagMempool.Lib.GoMap
import Mathlib.Data.List.Induction

/-!
# Filing entries under new keys

A loop over some keys of a map that takes each entry out and puts it back under another key.
An entry that was put somewhere is not moved again, so the keys that were written are kept
beside the map. Whether every entry survives depends on the new keys and on the order: a new
key has to be the old one, or free, or one whose own entry was moved away before.
-/

namespace Refile

theorem nodup_concat {k : K} : (ks ++ [k]).Nodup ↔ ks.Nodup ∧ k ∉ ks := by
  rw [List.nodup_append]
  refine ⟨fun h => ⟨h.1, fun hk => h.2.2 k hk k (by simp) rfl⟩, fun h => ⟨h.1, by simp, ?_⟩⟩
  rintro a ha b hb rfl
  exact h.2 (List.mem_singleton.mp hb ▸ ha)

variable {K V : Type} [DecidableEq K]

/-- The map and the keys that something was moved to. -/
structure Filing (K V : Type) where
  map : GoMap K V
  moved : List K

variable (f : K → K) (u : K → V)

def move (st : Filing K V) (k : K) : Filing K V :=
  if st.map.has k && !st.moved.contains k then
    { map := (st.map.del k).set (f k) (u k), moved := f k :: st.moved }
  else st

def moveAll (st : Filing K V) (ks : List K) : Filing K V := ks.foldl (move f u) st

/-- Every new key is free when it is needed, and none is needed twice. -/
def Vacant (m : GoMap K V) (ks : List K) : Prop :=
  (ks.map f).Nodup ∧
    ∀ i k, ks[i]? = some k → f k = k ∨ f k ∈ ks.take i ∨ m.has (f k) = false

variable {f u} {ks : List K} {m : GoMap K V}

theorem moveAll_concat (st : Filing K V) (ks : List K) (k : K) :
    moveAll f u st (ks ++ [k]) = move f u (moveAll f u st ks) k := by
  rw [moveAll, List.foldl_append]
  rfl

theorem vacant_concat {k : K} :
    Vacant f m (ks ++ [k]) ↔
      Vacant f m ks ∧ f k ∉ ks.map f ∧ (f k = k ∨ f k ∈ ks ∨ m.has (f k) = false) := by
  have hlast : (ks ++ [k])[ks.length]? = some k := by simp
  constructor
  · rintro ⟨hnodup, hfree⟩
    rw [List.map_append, List.map_singleton, nodup_concat] at hnodup
    refine ⟨⟨hnodup.1, fun i k' hget => ?_⟩, hnodup.2, ?_⟩
    · have hi := (List.getElem?_eq_some_iff.mp hget).1
      have hfree := hfree i k' (by rw [List.getElem?_append_left hi]; exact hget)
      rwa [List.take_append_of_le_length (Nat.le_of_lt hi)] at hfree
    · have hfree := hfree ks.length k hlast
      rwa [List.take_left' rfl] at hfree
  · rintro ⟨⟨hnodup, hfree⟩, hnew, hk⟩
    refine ⟨?_, fun i k' hget => ?_⟩
    · rw [List.map_append, List.map_singleton, nodup_concat]
      exact ⟨hnodup, hnew⟩
    · rw [List.getElem?_append] at hget
      split at hget
      · next hi =>
          rw [List.take_append_of_le_length (Nat.le_of_lt hi)]
          exact hfree i k' hget
      · next hi =>
          obtain ⟨hlt, hget⟩ := List.getElem?_eq_some_iff.mp hget
          have hi : i = ks.length := by
            rw [List.length_singleton] at hlt
            omega
          rw [List.getElem_singleton] at hget
          rw [hi, List.take_left' rfl, ← hget]
          exact hk

theorem vacant_singleton {k : K} : Vacant f m [k] ↔ f k = k ∨ m.has (f k) = false := by
  constructor
  · intro h
    simpa using h.2 0 k rfl
  · intro h
    refine ⟨List.nodup_singleton _, fun i k' hget => ?_⟩
    obtain rfl : k' = k := List.mem_singleton.mp (List.mem_of_getElem? hget)
    exact h.imp_right .inr

/-! ## What is where -/

/-- What a step can leave under a key: an entry that was not to be moved, or a moved one. -/
structure Placed (f : K → K) (u : K → V) (m : GoMap K V) (ks : List K) (st : Filing K V) :
    Prop where
  entry : ∀ x v, st.map.get x = some v →
    (x ∉ ks ∧ m.get x = some v) ∨ ∃ k ∈ ks, x = f k ∧ v = u k
  taken : ∀ x ∈ st.moved, ∀ v, st.map.get x = some v → ∃ k ∈ ks, x = f k ∧ v = u k

theorem Placed.move {st : Filing K V} (h : Placed f u m ks st) (k : K) :
    Placed f u m (ks ++ [k]) (move f u st k) := by
  have hlater : ∀ {x v}, (∃ k ∈ ks, x = f k ∧ v = u k) → ∃ k' ∈ ks ++ [k], x = f k' ∧ v = u k' := by
    rintro x v ⟨k', hk', hx, hv⟩
    exact ⟨k', List.mem_append_left _ hk', hx, hv⟩
  have hother : ∀ {x v}, x ≠ k → st.map.get x = some v →
      (x ∉ ks ++ [k] ∧ m.get x = some v) ∨ ∃ k' ∈ ks ++ [k], x = f k' ∧ v = u k' := by
    intro x v hne hget
    rcases h.entry x v hget with ⟨hnot, hold⟩ | hmoved
    · exact .inl ⟨by simp [hnot, hne], hold⟩
    · exact .inr (hlater hmoved)
  unfold Refile.move
  split
  · refine ⟨fun x v hget => ?_, fun x hx v hget => ?_⟩
    · rcases GoMap.get_set_eq_some hget with ⟨hx, hv⟩ | ⟨-, hold⟩
      · exact .inr ⟨k, by simp, hx, hv⟩
      · obtain ⟨hne, hold⟩ := GoMap.get_del_eq_some.mp hold
        exact hother hne hold
    · rcases GoMap.get_set_eq_some hget with ⟨hx, hv⟩ | ⟨hne, hold⟩
      · exact ⟨k, by simp, hx, hv⟩
      · obtain ⟨-, hold⟩ := GoMap.get_del_eq_some.mp hold
        exact hlater (h.taken x ((List.mem_cons.mp hx).resolve_left hne) v hold)
  · next hskip =>
      refine ⟨fun x v hget => ?_, fun x hx v hget => hlater (h.taken x hx v hget)⟩
      by_cases hx : x = k
      · -- An entry that is there and is not moved was written in this loop.
        subst hx
        have hhas : st.map.has x = true := GoMap.has_iff.mpr ⟨v, hget⟩
        rw [hhas, Bool.true_and, Bool.not_eq_true', Bool.not_eq_false,
          List.contains_iff_mem] at hskip
        exact .inr (hlater (h.taken x hskip v hget))
      · exact hother hx hget

theorem placed_moveAll (m : GoMap K V) (ks : List K) :
    Placed f u m ks (moveAll f u { map := m, moved := [] } ks) := by
  induction ks using List.reverseRecOn with
  | nil => exact ⟨fun x v hget => .inl ⟨by simp, hget⟩, fun x hx => absurd hx List.not_mem_nil⟩
  | append_singleton ks k ih =>
    rw [moveAll_concat]
    exact ih.move k

/-- The same moves of other values: what the entries agree on, they agree on afterwards. -/
theorem get_moveAll_congr {W X : Type} {g : V → X} {g' : W → X} {u' : K → W} {st : Filing K V}
    {st' : Filing K W} (hu : ∀ k ∈ ks, g (u k) = g' (u' k))
    (hmap : ∀ x, (st.map.get x).map g = (st'.map.get x).map g') (hmoved : st.moved = st'.moved)
    (x : K) :
    ((moveAll f u st ks).map.get x).map g = ((moveAll f u' st' ks).map.get x).map g' := by
  induction ks generalizing st st' with
  | nil => exact hmap x
  | cons k ks ih =>
    have hhas : st.map.has k = st'.map.has k := by
      rw [GoMap.has, GoMap.has, ← Option.isSome_map, hmap, Option.isSome_map]
    have hrest : ∀ k' ∈ ks, g (u k') = g' (u' k') := fun k' hk' => hu k' (.tail k hk')
    refine ih hrest (fun y => ?_) ?_
    · unfold move
      rw [hhas, hmoved]
      split
      · simp only [GoMap.get_set, GoMap.get_del]
        by_cases hy : y = f k
        · simp [hy, hu k List.mem_cons_self]
        · rw [if_neg hy, if_neg hy]
          by_cases hk : y = k
          · rw [if_pos hk, if_pos hk]
            rfl
          · rw [if_neg hk, if_neg hk]
            exact hmap y
      · exact hmap y
    · unfold move
      rw [hhas, hmoved]
      split
      · rfl
      · exact hmoved

/-! ## What is left -/

/-- Moving an entry keeps the number of entries, or loses the one that was under the key. -/
theorem len_move_le (st : Filing K V) (k : K) : (move f u st k).map.len ≤ st.map.len := by
  unfold move
  split
  · next h =>
      obtain ⟨v, hget⟩ := GoMap.has_iff.mp (Bool.and_eq_true_iff.mp h).1
      have hdel := GoMap.len_del hget
      have hset := GoMap.len_set_le (st.map.del k) (f k) (u k)
      dsimp only
      omega
  · exact Nat.le_refl _

theorem len_moveAll_le (st : Filing K V) (ks : List K) :
    (moveAll f u st ks).map.len ≤ st.map.len := by
  induction ks using List.reverseRecOn with
  | nil => exact Nat.le_refl _
  | append_singleton ks k ih =>
    rw [moveAll_concat]
    exact Nat.le_trans (len_move_le _ k) ih

/-- What the map is after moves that all found a free key. -/
structure Moved (f : K → K) (u : K → V) (m : GoMap K V) (ks : List K) (st : Filing K V) :
    Prop where
  moved : ∀ x, x ∈ st.moved ↔ x ∈ ks.map f
  has : ∀ x, st.map.has x = true ↔ x ∈ ks.map f ∨ x ∉ ks ∧ m.has x = true
  get : ∀ x, x ∉ ks → x ∉ ks.map f → st.map.get x = m.get x
  values : st.map.values.Perm (ks.map u ++ (m.delAll ks).values)

/-- Where all keys were free, nothing was moved onto a key that is still to be moved. -/
theorem Vacant.not_moved {k : K} (h : Vacant f m ks) (hk : k ∉ ks) (hhas : m.has k = true) :
    k ∉ ks.map f := by
  intro hmem
  obtain ⟨k', hk', rfl⟩ := List.mem_map.mp hmem
  obtain ⟨i, hi⟩ := List.mem_iff_getElem?.mp hk'
  rcases h.2 i k' hi with hself | hbefore | hfree
  · exact hk (hself.symm ▸ hk')
  · exact hk (List.mem_of_mem_take hbefore)
  · rw [hhas] at hfree
    cases hfree

section

variable {m : GoMap K V} {ks : List K} {st : Filing K V} {k : K}

theorem Moved.move_eq (h : Moved f u m ks st) (hk : k ∉ ks) (hhas : m.has k = true)
    (hnot : k ∉ ks.map f) :
    move f u st k = { map := (st.map.del k).set (f k) (u k), moved := f k :: st.moved } := by
  have hhere : st.map.has k = true := (h.has k).mpr (.inr ⟨hk, hhas⟩)
  have hmoved : st.moved.contains k = false := by
    rw [← Bool.not_eq_true, List.contains_iff_mem, h.moved]
    exact hnot
  rw [move, hhere, hmoved]
  rfl

/-- The key that is needed is free exactly if it is the old one, or nobody's, or was left. -/
theorem Moved.free_iff (h : Moved f u m ks st) (hnot : k ∉ ks.map f) :
    (st.map.del k).get (f k) = none ↔
      f k ∉ ks.map f ∧ (f k = k ∨ f k ∈ ks ∨ m.has (f k) = false) := by
  have hnone : st.map.get (f k) = none ↔ ¬ st.map.has (f k) = true := by
    rw [GoMap.has]
    cases st.map.get (f k) <;> simp
  rw [GoMap.get_del]
  split
  · next hself =>
      rw [hself]
      simp [hnot]
  · next hne =>
      rw [hnone, h.has, not_or, not_and_or, not_not, Bool.not_eq_true]
      simp [hne]

theorem Moved.step (h : Moved f u m ks st) (hk : k ∉ ks) (hhas : m.has k = true)
    (hnot : k ∉ ks.map f) (hfree : (st.map.del k).get (f k) = none) :
    Moved f u m (ks ++ [k]) (move f u st k) := by
  rw [h.move_eq hk hhas hnot]
  obtain ⟨v, hv⟩ := GoMap.has_iff.mp hhas
  have hget : st.map.get k = some v := (h.get k hk hnot).trans hv
  have hdel : (m.delAll ks).get k = some v := GoMap.get_delAll_eq_some.mpr ⟨hk, hv⟩
  refine ⟨fun x => ?_, fun x => ?_, fun x hx hxf => ?_, ?_⟩
  · rw [List.mem_cons, h.moved, List.map_append, List.mem_append, List.map_singleton,
      List.mem_singleton, or_comm]
  · rw [GoMap.has_set, GoMap.has_del, h.has, List.map_append, List.mem_append,
      List.map_singleton, List.mem_singleton, List.mem_append, List.mem_singleton]
    have hne : x ∈ ks.map f → x ≠ k := fun hx he => hnot (he ▸ hx)
    tauto
  · rw [List.map_append, List.mem_append, List.map_singleton, List.mem_singleton,
      not_or] at hxf
    rw [List.mem_append, List.mem_singleton, not_or] at hx
    rw [GoMap.get_set_ne hxf.2, GoMap.get_del, if_neg hx.2]
    exact h.get x hx.1 hxf.1
  · rw [GoMap.values_set, GoMap.del_of_get_none hfree, GoMap.delAll_concat, List.map_append,
      List.append_assoc]
    -- The value that is taken out is the same on both sides, and so is the one put in.
    have hrest : (st.map.del k).values.Perm (ks.map u ++ ((m.delAll ks).del k).values) := by
      refine List.Perm.cons_inv (a := v) ?_
      exact (GoMap.values_perm hget).symm.trans (h.values.trans
        (((GoMap.values_perm hdel).append_left _).trans List.perm_middle))
    exact (hrest.cons (u k)).trans List.perm_middle.symm

end

theorem moved_moveAll (hnodup : ks.Nodup) (hhas : ∀ k ∈ ks, m.has k = true) (h : Vacant f m ks) :
    Moved f u m ks (moveAll f u { map := m, moved := [] } ks) := by
  induction ks using List.reverseRecOn with
  | nil => exact ⟨by simp [moveAll], by simp [moveAll], by simp [moveAll], .refl _⟩
  | append_singleton ks k ih =>
    obtain ⟨hks, hfree⟩ := vacant_concat.mp h
    obtain ⟨hnodup, hk⟩ := nodup_concat.mp hnodup
    have hmoved := ih hnodup (fun k' hk' => hhas k' (List.mem_append_left _ hk')) hks
    have hm := hhas k (by simp)
    have hnot := hks.not_moved hk hm
    rw [moveAll_concat]
    exact hmoved.step hk hm hnot ((hmoved.free_iff hnot).mpr hfree)

/-- If as many entries are left as there were, every new key was free. -/
theorem vacant_of_len (hnodup : ks.Nodup) (hhas : ∀ k ∈ ks, m.has k = true)
    (hlen : m.len ≤ (moveAll f u { map := m, moved := [] } ks).map.len) : Vacant f m ks := by
  induction ks using List.reverseRecOn with
  | nil => exact ⟨by simp, by simp⟩
  | append_singleton ks k ih =>
    obtain ⟨hnodup, hk⟩ := nodup_concat.mp hnodup
    have hhas' : ∀ k' ∈ ks, m.has k' = true :=
      fun k' hk' => hhas k' (List.mem_append_left _ hk')
    have hm := hhas k (by simp)
    rw [moveAll_concat] at hlen
    have hks := ih hnodup hhas' (Nat.le_trans hlen (len_move_le _ k))
    have hmoved := moved_moveAll (u := u) hnodup hhas' hks
    have hnot := hks.not_moved hk hm
    refine vacant_concat.mpr ⟨hks, (hmoved.free_iff hnot).mp ?_⟩
    -- Otherwise the entry under the new key was lost.
    cases hget : ((moveAll f u { map := m, moved := [] } ks).map.del k).get (f k) with
    | none => rfl
    | some v =>
      exfalso
      obtain ⟨w, hw⟩ := GoMap.has_iff.mp ((hmoved.has k).mpr (.inr ⟨hk, hm⟩))
      have hdel := GoMap.len_del hw
      have hlost : (((moveAll f u { map := m, moved := [] } ks).map.del k).set (f k)
          (u k)).len = ((moveAll f u { map := m, moved := [] } ks).map.del k).len := by
        have hset := GoMap.len_del hget
        exact hset
      have hle := len_moveAll_le (f := f) (u := u) { map := m, moved := [] } ks
      rw [hmoved.move_eq hk hm hnot] at hlen
      dsimp only at hlen hle
      omega

theorem len_delAll (hnodup : ks.Nodup) (hhas : ∀ k ∈ ks, m.has k = true) :
    (m.delAll ks).len + ks.length = m.len := by
  induction ks using List.reverseRecOn with
  | nil => rfl
  | append_singleton ks k ih =>
    obtain ⟨hnodup, hk⟩ := nodup_concat.mp hnodup
    have hih := ih hnodup fun k' hk' => hhas k' (List.mem_append_left _ hk')
    obtain ⟨v, hv⟩ := GoMap.has_iff.mp (hhas k (by simp))
    have hdel := GoMap.len_del (GoMap.get_delAll_eq_some.mpr ⟨hk, hv⟩)
    rw [GoMap.delAll_concat, List.length_append, List.length_singleton]
    omega

/-- Every entry is still there, the moved ones with their new values, exactly if every new key
was free when it was needed. -/
theorem values_moveAll (hnodup : ks.Nodup) (hhas : ∀ k ∈ ks, m.has k = true) :
    (moveAll f u { map := m, moved := [] } ks).map.values.Perm
        (ks.map u ++ (m.delAll ks).values) ↔
      Vacant f m ks := by
  constructor
  · intro hperm
    refine vacant_of_len (u := u) hnodup hhas ?_
    have hlen := hperm.length_eq
    have hdel := len_delAll hnodup hhas
    rw [List.length_append, List.length_map, GoMap.values, GoMap.values, List.length_map,
      List.length_map] at hlen
    rw [GoMap.len, GoMap.len] at hdel ⊢
    omega
  · intro h
    exact (moved_moveAll hnodup hhas h).values

end Refile
