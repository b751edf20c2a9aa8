import Mathlib.Order.Lattice.Nat
import Mathlib.Data.List.Nodup
import Mathlib.Data.List.Pairwise

/-!
# Breadth-first search, a level at a time

The loop as programs write it: a queue of nodes, a set of the keys met so far, and
the list of the nodes taken from the queue. A node refers to others by key, and a
lookup may fail; a key is marked when it is met, whether or not there is a node for
it. The outer loop runs over levels: it notes how long the queue is, takes that many
nodes from it, and stops when the queue is empty or a number of levels is done.

The queue is only ever appended to, so a whole level is one pass over the keys its
nodes refer to (`level_eq`), and what it adds to the queue is the nodes behind the keys
not met before. With that, one invariant about whole levels gives everything: after
`n` levels the nodes taken are those at distance below `n`, and the queue holds those
at distance `n`.

The root stands for its own key, whatever a lookup of that key would answer.
-/

namespace LevelSearch

variable {α κ : Type}

/-- The variables of the loop. -/
structure State (α κ : Type) where
  visited : List κ
  queue : List α
  result : List α

section

variable [DecidableEq κ]

/-- One reference of the node in hand. -/
def meet (find : κ → Option α) (s : State α κ) (k : κ) : State α κ :=
  if k ∈ s.visited then s
  else { s with visited := k :: s.visited, queue := s.queue ++ (find k).toList }

/-- One node taken from the queue. -/
def visit (refs : α → List κ) (find : κ → Option α) (s : State α κ) : State α κ :=
  match s.queue with
  | [] => s
  | current :: rest =>
    (refs current).foldl (meet find) { s with queue := rest, result := s.result ++ [current] }

/-- As many nodes as the level has. -/
def level (refs : α → List κ) (find : κ → Option α) : Nat → State α κ → State α κ
  | 0, s => s
  | n + 1, s => level refs find n (visit refs find s)

/-- The outer loop, with the number of levels it may still do. -/
def levels (refs : α → List κ) (find : κ → Option α) : Nat → State α κ → State α κ
  | 0, s => s
  | depth + 1, s =>
    match s.queue with
    | [] => s
    | _ :: _ => levels refs find depth (level refs find s.queue.length s)

/-- The search from one node, with its key met. -/
def search (key : α → κ) (refs : α → List κ) (find : κ → Option α) (maxDepth : Nat) (root : α) :
    List α :=
  (levels refs find maxDepth { visited := [key root], queue := [root], result := [] }).result

/-! ## A level as one pass -/

/-- The keys of a list not met before, each where it is met first. -/
def fresh (visited : List κ) : List κ → List κ
  | [] => []
  | k :: ks => if k ∈ visited then fresh visited ks else k :: fresh (k :: visited) ks

theorem mem_fresh {visited ks : List κ} {k : κ} :
    k ∈ fresh visited ks ↔ k ∈ ks ∧ k ∉ visited := by
  induction ks generalizing visited with
  | nil => simp [fresh]
  | cons x xs ih =>
    rw [fresh]
    by_cases hx : x ∈ visited
    · rw [if_pos hx, ih, List.mem_cons]
      constructor
      · rintro ⟨hk, hfree⟩
        exact ⟨.inr hk, hfree⟩
      · rintro ⟨rfl | hk, hfree⟩
        · exact absurd hx hfree
        · exact ⟨hk, hfree⟩
    · rw [if_neg hx, List.mem_cons, ih, List.mem_cons, List.mem_cons]
      by_cases hk : k = x
      · subst hk
        simp [hx]
      · simp [hk]

theorem nodup_fresh (visited ks : List κ) : (fresh visited ks).Nodup := by
  induction ks generalizing visited with
  | nil => exact List.nodup_nil
  | cons x xs ih =>
    rw [fresh]
    split
    · exact ih visited
    · refine List.nodup_cons.mpr ⟨fun hmem => ?_, ih _⟩
      exact (mem_fresh.mp hmem).2 List.mem_cons_self

theorem foldl_meet (find : κ → Option α) (ks : List κ) (s : State α κ) :
    ks.foldl (meet find) s =
      { s with
        visited := (fresh s.visited ks).reverse ++ s.visited
        queue := s.queue ++ (fresh s.visited ks).filterMap find } := by
  induction ks generalizing s with
  | nil => simp [fresh]
  | cons k ks ih =>
    rw [List.foldl_cons, ih, meet, fresh]
    by_cases hk : k ∈ s.visited
    · rw [if_pos hk, if_pos hk]
    · rw [if_neg hk, if_neg hk]
      cases hf : find k with
      | none => simp [hf]
      | some a => simp [hf]

variable {refs : α → List κ} {find : κ → Option α}

/-- The nodes already waiting in the queue for the next level do not matter to this
one: all it does is go over the references of its nodes. -/
theorem level_append (layer next : List α) (s : State α κ) (hs : s.queue = layer ++ next) :
    level refs find layer.length s =
      (layer.flatMap refs).foldl (meet find)
        { s with queue := next, result := s.result ++ layer } := by
  induction layer generalizing next s with
  | nil =>
    rw [List.nil_append] at hs
    rw [List.append_nil, ← hs]
    rfl
  | cons a layer ih =>
    have hvisit : visit refs find s = (refs a).foldl (meet find)
        { s with queue := layer ++ next, result := s.result ++ [a] } := by
      rw [visit, hs]
      rfl
    rw [List.length_cons, level, hvisit, List.flatMap_cons, List.foldl_append, foldl_meet,
      ih (next ++ (fresh s.visited (refs a)).filterMap find) _ (List.append_assoc _ _ _)]
    simp [foldl_meet]

variable (refs find) in
/-- What a level leaves: its nodes taken, their references met, and in the queue the
nodes behind the new ones. -/
theorem level_eq (s : State α κ) :
    level refs find s.queue.length s =
      { visited := (fresh s.visited (s.queue.flatMap refs)).reverse ++ s.visited
        queue := (fresh s.visited (s.queue.flatMap refs)).filterMap find
        result := s.result ++ s.queue } := by
  rw [level_append s.queue [] s (List.append_nil _).symm, foldl_meet]
  rfl

end

/-! ## Distance -/

section

variable (refs : α → List κ) (resolve : κ → Option α)

/-- One node refers to another. -/
def Refers (a b : α) : Prop := ∃ k ∈ refs a, resolve k = some b

/-- Some path of this many references leads from the root to a node. -/
def Reaches (root : α) : Nat → α → Prop
  | 0, b => b = root
  | n + 1, b => ∃ a, Reaches root n a ∧ Refers refs resolve a b

/-- The length of the shortest path. -/
noncomputable def distance (root b : α) : Nat :=
  sInf { n | Reaches refs resolve root n b }

variable {refs resolve} {root b : α} {n : Nat}

theorem distance_le (h : Reaches refs resolve root n b) : distance refs resolve root b ≤ n :=
  Nat.sInf_le h

/-- No shorter path than one of this length. -/
def AtDistance (refs : α → List κ) (resolve : κ → Option α) (root : α) (n : Nat) (b : α) :
    Prop :=
  Reaches refs resolve root n b ∧ ∀ m < n, ¬ Reaches refs resolve root m b

theorem AtDistance.distance_eq (h : AtDistance refs resolve root n b) :
    distance refs resolve root b = n := by
  refine Nat.le_antisymm (distance_le h.1) ?_
  by_contra hlt
  have hmem : Reaches refs resolve root (distance refs resolve root b) b :=
    Nat.sInf_mem (s := { n | Reaches refs resolve root n b }) ⟨n, h.1⟩
  exact h.2 _ (by omega) hmem

theorem reaches_lt_of_empty (hempty : ∀ b, ¬ AtDistance refs resolve root n b) {m : Nat}
    (h : Reaches refs resolve root m b) : ∃ m' < n, Reaches refs resolve root m' b := by
  -- A path that is not shorter can be shortened at its end.
  have hexact : ∀ b, Reaches refs resolve root n b → ∃ m' < n, Reaches refs resolve root m' b := by
    intro b hb
    by_contra hnone
    exact hempty b ⟨hb, fun m' hlt hm' => hnone ⟨m', hlt, hm'⟩⟩
  induction m generalizing b with
  | zero =>
    rcases Nat.eq_zero_or_pos n with rfl | hpos
    · exact hexact b h
    · exact ⟨0, hpos, h⟩
  | succ m ih =>
    obtain ⟨a, ha, hab⟩ := h
    obtain ⟨m', hlt, hm'⟩ := ih ha
    have hnext : Reaches refs resolve root (m' + 1) b := ⟨a, hm', hab⟩
    rcases Nat.lt_or_ge (m' + 1) n with hless | hge
    · exact ⟨m' + 1, hless, hnext⟩
    · obtain rfl : n = m' + 1 := by omega
      exact hexact b hnext

end

/-! ## The search finds what is near -/

section

variable [DecidableEq κ]

/-- The root under its own key, and every other key as a lookup has it. -/
def resolve (key : α → κ) (find : κ → Option α) (root : α) (k : κ) : Option α :=
  if k = key root then some root else find k

variable {key : α → κ} {refs : α → List κ} {find : κ → Option α} {root : α}

/-- Where the search stands after `n` levels. -/
structure Layered (key : α → κ) (refs : α → List κ) (find : κ → Option α) (root : α) (n : Nat)
    (s : State α κ) : Prop where
  visited : ∀ k, k ∈ s.visited ↔ k = key root ∨ ∃ a ∈ s.result, k ∈ refs a
  result : ∀ b, b ∈ s.result ↔ ∃ m < n, Reaches refs (resolve key find root) root m b
  queue : ∀ b, b ∈ s.queue ↔ AtDistance refs (resolve key find root) root n b
  distinct : ((s.result ++ s.queue).map key).Nodup
  sorted : s.result.Pairwise fun a b =>
    distance refs (resolve key find root) root a ≤ distance refs (resolve key find root) root b

theorem layered_start :
    Layered key refs find root 0
      { visited := [key root], queue := [root], result := [] } where
  visited k := by simp
  result b := by simp
  queue b := by
    rw [List.mem_singleton]
    constructor
    · rintro rfl
      exact ⟨rfl, fun m hm => absurd hm (Nat.not_lt_zero m)⟩
    · rintro ⟨h, -⟩
      exact h
  distinct := by simp
  sorted := .nil

/-- The nodes taken and those waiting are what is up to `n` references away. -/
theorem Layered.mem_result_append_queue {n : Nat} {s : State α κ}
    (h : Layered key refs find root n s) {b : α} :
    b ∈ s.result ++ s.queue ↔ ∃ m < n + 1, Reaches refs (resolve key find root) root m b := by
  rw [List.mem_append, h.result, h.queue]
  constructor
  · rintro (⟨m, hm, hreach⟩ | ⟨hreach, -⟩)
    · exact ⟨m, by omega, hreach⟩
    · exact ⟨n, by omega, hreach⟩
  · rintro ⟨m, hm, hreach⟩
    by_cases hless : ∃ m < n, Reaches refs (resolve key find root) root m b
    · exact .inl hless
    · obtain rfl : m = n := by
        by_contra hne
        exact hless ⟨m, by omega, hreach⟩
      exact .inr ⟨hreach, fun m' hm' hr => hless ⟨m', hm', hr⟩⟩

section

variable (hkeyed : ∀ k a, find k = some a → key a = k)

include hkeyed

theorem key_of_resolve {k : κ} {a : α} (h : resolve key find root k = some a) : key a = k := by
  unfold resolve at h
  split at h
  · next hk => rw [← Option.some.inj h, hk]
  · exact hkeyed k a h

variable {n : Nat} {s : State α κ}

theorem resolve_of_reaches {b : α} (h : Reaches refs (resolve key find root) root n b) :
    resolve key find root (key b) = some b := by
  cases n with
  | zero =>
    obtain rfl : b = root := h
    exact if_pos rfl
  | succ n =>
    obtain ⟨a, -, k, -, hk⟩ := h
    rw [key_of_resolve hkeyed hk]
    exact hk

theorem eq_of_key_eq {n m : Nat} {a b : α}
    (ha : Reaches refs (resolve key find root) root n a)
    (hb : Reaches refs (resolve key find root) root m b) (hkey : key a = key b) : a = b := by
  have hra := resolve_of_reaches hkeyed ha
  rw [hkey, resolve_of_reaches hkeyed hb] at hra
  exact (Option.some.inj hra).symm

/-- The next level: the nodes behind the keys a level meets for the first time. -/
theorem Layered.mem_next (h : Layered key refs find root n s) {b : α} :
    b ∈ (fresh s.visited (s.queue.flatMap refs)).filterMap find ↔
      AtDistance refs (resolve key find root) root (n + 1) b := by
  rw [List.mem_filterMap]
  constructor
  · rintro ⟨k, hk, hfind⟩
    obtain ⟨hk, hfree⟩ := mem_fresh.mp hk
    obtain ⟨a, ha, hka⟩ := List.mem_flatMap.mp hk
    have hroot : k ≠ key root := fun he => hfree ((h.visited k).mpr (.inl he))
    have hresolve : resolve key find root k = some b := (if_neg hroot).trans hfind
    refine ⟨⟨a, ((h.queue a).mp ha).1, k, hka, hresolve⟩, fun m hm hreach => ?_⟩
    -- A shorter path would end in the same key, and that key would have been met.
    cases m with
    | zero =>
      obtain rfl : b = root := hreach
      exact hroot (hkeyed k b hfind).symm
    | succ m =>
      obtain ⟨a', ha', k', hk', hres'⟩ := hreach
      obtain rfl : k' = k :=
        (key_of_resolve hkeyed hres').symm.trans (hkeyed k b hfind)
      exact hfree ((h.visited k').mpr
        (.inr ⟨a', (h.result a').mpr ⟨m, by omega, ha'⟩, hk'⟩))
  · rintro ⟨⟨a, ha, k, hka, hresolve⟩, hmin⟩
    have hqueue : a ∈ s.queue := (h.queue a).mpr
      ⟨ha, fun m hm hreach => hmin (m + 1) (by omega) ⟨a, hreach, k, hka, hresolve⟩⟩
    have hfree : k ∉ s.visited := by
      intro hvis
      rcases (h.visited k).mp hvis with rfl | ⟨a', ha', hka'⟩
      · have hb : b = root := (Option.some.inj ((if_pos rfl).symm.trans hresolve)).symm
        exact hmin 0 (by omega) hb
      · obtain ⟨m, hm, hreach⟩ := (h.result a').mp ha'
        exact hmin (m + 1) (by omega) ⟨a', hreach, k, hka', hresolve⟩
    refine ⟨k, mem_fresh.mpr ⟨List.mem_flatMap.mpr ⟨a, hqueue, hka⟩, hfree⟩, ?_⟩
    have hroot : k ≠ key root := fun he => hfree ((h.visited k).mpr (.inl he))
    exact (if_neg hroot).symm.trans hresolve

omit [DecidableEq κ] in
theorem nodup_filterMap_keys {ks : List κ} (hks : ks.Nodup) :
    ((ks.filterMap find).map key).Nodup := by
  refine hks.sublist ?_
  induction ks with
  | nil => exact .slnil
  | cons k ks ih =>
    have hsub := ih (List.nodup_cons.mp hks).2
    cases hf : find k with
    | none =>
      rw [List.filterMap_cons_none hf]
      exact hsub.cons k
    | some a =>
      rw [List.filterMap_cons_some hf, List.map_cons, hkeyed k a hf]
      exact hsub.cons_cons k

theorem Layered.next (h : Layered key refs find root n s) :
    Layered key refs find root (n + 1) (level refs find s.queue.length s) := by
  rw [level_eq]
  constructor
  · intro k
    simp only [List.mem_append, List.mem_reverse, mem_fresh, List.mem_flatMap]
    constructor
    · rintro (⟨⟨a, ha, hka⟩, -⟩ | hvis)
      · exact .inr ⟨a, .inr ha, hka⟩
      · rcases (h.visited k).mp hvis with hroot | ⟨a, ha, hka⟩
        · exact .inl hroot
        · exact .inr ⟨a, .inl ha, hka⟩
    · intro hk
      by_cases hvis : k ∈ s.visited
      · exact .inr hvis
      · refine .inl ⟨?_, hvis⟩
        rcases hk with hroot | ⟨a, ha | ha, hka⟩
        · exact absurd ((h.visited k).mpr (.inl hroot)) hvis
        · exact absurd ((h.visited k).mpr (.inr ⟨a, ha, hka⟩)) hvis
        · exact ⟨a, ha, hka⟩
  · exact fun b => h.mem_result_append_queue
  · exact fun b => h.mem_next hkeyed
  · rw [List.map_append]
    refine List.nodup_append'.mpr
      ⟨h.distinct, nodup_filterMap_keys hkeyed (nodup_fresh _ _), ?_⟩
    intro k hold hnew
    obtain ⟨a, ha, rfl⟩ := List.mem_map.mp hold
    obtain ⟨b, hb, hkey⟩ := List.mem_map.mp hnew
    obtain ⟨hreach, hmin⟩ := (h.mem_next hkeyed).mp hb
    obtain ⟨m, hm, hra⟩ := h.mem_result_append_queue.mp ha
    rw [eq_of_key_eq hkeyed hreach hra hkey] at hmin
    exact hmin m hm hra
  · refine List.pairwise_append.mpr ⟨h.sorted, ?_, ?_⟩
    · refine List.Pairwise.imp_of_mem (R := fun _ _ => True) ?_ (List.pairwise_of_forall (by simp))
      intro a b ha hb _
      rw [((h.queue a).mp ha).distance_eq, ((h.queue b).mp hb).distance_eq]
    · intro a ha b hb
      obtain ⟨m, hm, hreach⟩ := (h.result a).mp ha
      rw [((h.queue b).mp hb).distance_eq]
      exact (distance_le hreach).trans (by omega)

/-- What the outer loop returns: everything nearer than the number of levels, once, and
nearer first. -/
theorem Layered.levels (h : Layered key refs find root n s) (depth : Nat) :
    (∀ b, b ∈ (levels refs find depth s).result ↔
      ∃ m < n + depth, Reaches refs (resolve key find root) root m b) ∧
    ((levels refs find depth s).result.map key).Nodup ∧
    (levels refs find depth s).result.Pairwise fun a b =>
      distance refs (resolve key find root) root a ≤
        distance refs (resolve key find root) root b := by
  have hdistinct : (s.result.map key).Nodup := by
    have hd := h.distinct
    rw [List.map_append] at hd
    exact hd.of_append_left
  induction depth generalizing n s with
  | zero => exact ⟨h.result, hdistinct, h.sorted⟩
  | succ depth ih =>
    rw [LevelSearch.levels]
    split
    · next hempty =>
        refine ⟨fun b => (h.result b).trans ⟨?_, ?_⟩, hdistinct, h.sorted⟩
        · rintro ⟨m, hm, hreach⟩
          exact ⟨m, by omega, hreach⟩
        · rintro ⟨m, -, hreach⟩
          refine reaches_lt_of_empty (fun b hb => ?_) hreach
          have hmem := (h.queue b).mpr hb
          rw [hempty] at hmem
          exact List.not_mem_nil hmem
    · have hnext := h.next hkeyed
      have hd := hnext.distinct
      rw [List.map_append] at hd
      have hrest := ih hnext hd.of_append_left
      rwa [Nat.add_right_comm, Nat.add_assoc] at hrest

variable (refs) in
/-- The search returns the nodes fewer than `maxDepth` references away, no key twice, in
the order of their distance. -/
theorem search_spec (maxDepth : Nat) (root : α) :
    (∀ b, b ∈ search key refs find maxDepth root ↔
      ∃ m < maxDepth, Reaches refs (resolve key find root) root m b) ∧
    ((search key refs find maxDepth root).map key).Nodup ∧
    (search key refs find maxDepth root).Pairwise fun a b =>
      distance refs (resolve key find root) root a ≤
        distance refs (resolve key find root) root b := by
  have hstart : Layered key refs find root 0 _ := layered_start
  have h := hstart.levels hkeyed maxDepth
  rwa [Nat.zero_add] at h

end

variable (refs find) in
theorem result_isPrefix (depth : Nat) (s : State α κ) :
    s.result <+: (levels refs find depth s).result := by
  induction depth generalizing s with
  | zero => exact List.prefix_rfl
  | succ depth ih =>
    rw [levels]
    split
    · exact List.prefix_rfl
    · refine List.IsPrefix.trans ?_ (ih _)
      rw [level_eq]
      exact List.prefix_append _ _

/-! ## What the search depends on -/

/-- What the search reads of a node. -/
def shape (key : α → κ) (refs : α → List κ) (a : α) : κ × List κ := (key a, refs a)

omit [DecidableEq κ] in
theorem flatMap_eq_of_shapes {l l' : List α}
    (h : l.map (shape key refs) = l'.map (shape key refs)) : l.flatMap refs = l'.flatMap refs := by
  have hsnd : ∀ m : List α, m.flatMap refs = (m.map (shape key refs)).flatMap Prod.snd := by
    intro m
    rw [List.flatMap_map]
    rfl
  rw [hsnd, hsnd, h]

/-- Two loops at the same point, over lookups that answer alike to the references of the
nodes that are taken. -/
theorem levels_congr {find' : κ → Option α} (depth : Nat) {s s' : State α κ}
    (hvisited : s.visited = s'.visited)
    (hqueue : s.queue.map (shape key refs) = s'.queue.map (shape key refs))
    (hresult : s.result.map (shape key refs) = s'.result.map (shape key refs))
    (hfind : ∀ a ∈ (levels refs find depth s).result, ∀ k ∈ refs a, k ∉ s.visited →
      (find k).map (shape key refs) = (find' k).map (shape key refs)) :
    (levels refs find depth s).result.map (shape key refs) =
      (levels refs find' depth s').result.map (shape key refs) := by
  induction depth generalizing s s' with
  | zero => exact hresult
  | succ depth ih =>
    have hlevels : ∀ (find : κ → Option α) (s : State α κ), s.queue ≠ [] →
        levels refs find (depth + 1) s =
          levels refs find depth (level refs find s.queue.length s) := by
      intro find s hne
      rw [levels]
      split
      · next hnil => exact absurd hnil hne
      · rfl
    by_cases hempty : s.queue = []
    · have hempty' : s'.queue = [] := by
        rw [hempty, List.map_nil] at hqueue
        exact List.map_eq_nil_iff.mp hqueue.symm
      rw [levels, levels, hempty, hempty']
      exact hresult
    · have hempty' : s'.queue ≠ [] := by
        intro hnil
        rw [hnil, List.map_nil] at hqueue
        exact hempty (List.map_eq_nil_iff.mp hqueue)
      have htaken : ∀ a ∈ s.queue,
          a ∈ (levels refs find depth (level refs find s.queue.length s)).result := by
        intro a ha
        refine (result_isPrefix refs find depth _).subset ?_
        rw [level_eq]
        exact List.mem_append_right _ ha
      rw [hlevels find s hempty] at hfind ⊢
      rw [hlevels find' s' hempty', level_eq, level_eq, ← hvisited,
        ← flatMap_eq_of_shapes hqueue]
      rw [level_eq] at hfind htaken
      refine ih rfl ?_ ?_ fun a ha k hk hfree => hfind a ha k hk fun hvis => ?_
      · rw [List.map_filterMap, List.map_filterMap]
        refine List.filterMap_congr fun k hk => ?_
        obtain ⟨href, hfree⟩ := mem_fresh.mp hk
        obtain ⟨a, ha, hka⟩ := List.mem_flatMap.mp href
        exact hfind a (htaken a ha) k hka hfree
      · simp only [List.map_append, hresult, hqueue]
      · exact hfree (List.mem_append_right _ hvis)

/-- The keys found are determined by the answers to the references of the nodes found. -/
theorem search_congr {find' : κ → Option α} {root' : α} (maxDepth : Nat)
    (hroot : shape key refs root = shape key refs root')
    (hfind : ∀ a ∈ search key refs find maxDepth root, ∀ k ∈ refs a,
      (find k).map (shape key refs) = (find' k).map (shape key refs)) :
    (search key refs find maxDepth root).map (shape key refs) =
      (search key refs find' maxDepth root').map (shape key refs) := by
  refine levels_congr maxDepth ?_ ?_ rfl fun a ha k hk _ => hfind a ha k hk
  · exact congrArg (fun o : κ × List κ => [o.1]) hroot
  · simp only [List.map_cons, List.map_nil, hroot]

theorem head_search (maxDepth : Nat) (root : α) :
    (search key refs find (maxDepth + 1) root).head? = some root := by
  have hpre := result_isPrefix refs find maxDepth
    (level refs find 1 { visited := [key root], queue := [root], result := [] })
  have hone := level_eq refs find { visited := [key root], queue := [root], result := [] }
  rw [List.length_singleton] at hone
  rw [hone] at hpre
  obtain ⟨rest, hrest⟩ := hpre
  have hsearch : search key refs find (maxDepth + 1) root = [root] ++ rest := by
    rw [search, levels, List.length_singleton, hone]
    exact hrest.symm
  rw [hsearch]
  rfl

end

end LevelSearch
