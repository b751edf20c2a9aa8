import Mathlib.Data.List.Sort
import DagMempool.Lib.GoMap

/-!
# An ordered key-value store

What a program sees of LevelDB: byte strings under byte strings, write batches that
take effect as a whole or not at all, and iterators over the keys that start with
given bytes, in ascending order. A store that is closed answers nothing any more.
One whose disk is full answers, but refuses every write.

The rules for programs are the ones about `applyAll`. What a key holds after a batch
is decided by the entries of the batch for that key, and if they agree, by any of
them.
-/

namespace LevelDB

inductive Error where
  | notFound
  | closed
  | noSpace
  deriving DecidableEq, Repr

/-- `err.Error()` -/
def Error.text : Error → String
  | .notFound => "leveldb: not found"
  | .closed => "leveldb: closed"
  | .noSpace => "no space left on device"

/-- One entry of a write batch. -/
inductive Op where
  | put (key value : List UInt8)
  | delete (key : List UInt8)

namespace Op

def key : Op → List UInt8
  | put k _ => k
  | delete k => k

/-- What the key holds afterwards. -/
def value : Op → Option (List UInt8)
  | put _ v => some v
  | delete _ => none

def apply (m : GoMap (List UInt8) (List UInt8)) : Op → GoMap (List UInt8) (List UInt8)
  | put k v => m.set k v
  | delete k => m.del k

theorem get_apply (m : GoMap (List UInt8) (List UInt8)) (op : Op) (k : List UInt8) :
    (apply m op).get k = if k = op.key then op.value else m.get k := by
  cases op with
  | put k' v => exact m.get_set k' k v
  | delete k' => exact m.get_del k' k

end Op

/-- The effect of a whole batch. -/
def applyAll (m : GoMap (List UInt8) (List UInt8)) (batch : List Op) :
    GoMap (List UInt8) (List UInt8) :=
  batch.foldl Op.apply m

variable {m : GoMap (List UInt8) (List UInt8)} {batch : List Op}

theorem get_applyAll_of_ne {k : List UInt8} (h : ∀ op ∈ batch, op.key ≠ k) :
    (applyAll m batch).get k = m.get k := by
  induction batch generalizing m with
  | nil => rfl
  | cons op batch ih =>
    have hop : k ≠ op.key := fun he => h op List.mem_cons_self he.symm
    have hrest : ∀ op' ∈ batch, op'.key ≠ k := fun op' hmem =>
      h op' (List.mem_cons_of_mem _ hmem)
    show (applyAll (Op.apply m op) batch).get k = m.get k
    rw [ih hrest, Op.get_apply, if_neg hop]

theorem get_applyAll_of_mem {k : List UInt8} {v : Option (List UInt8)}
    (hmem : ∃ op ∈ batch, op.key = k) (hagree : ∀ op ∈ batch, op.key = k → op.value = v) :
    (applyAll m batch).get k = v := by
  induction batch generalizing m with
  | nil =>
    obtain ⟨op, hop, -⟩ := hmem
    cases hop
  | cons first batch ih =>
    show (applyAll (Op.apply m first) batch).get k = v
    by_cases hlater : ∃ op ∈ batch, op.key = k
    · exact ih hlater fun op hop => hagree op (List.mem_cons_of_mem _ hop)
    · have hfirst : first.key = k := by
        obtain ⟨op, hop, hkey⟩ := hmem
        rcases List.mem_cons.mp hop with rfl | hop
        · exact hkey
        · exact absurd ⟨op, hop, hkey⟩ hlater
      have hrest : ∀ op ∈ batch, op.key ≠ k := fun op hop hkey => hlater ⟨op, hop, hkey⟩
      rw [get_applyAll_of_ne hrest, Op.get_apply, if_pos hfirst.symm]
      exact hagree first List.mem_cons_self hfirst

/-- What a key holds afterwards it held before, or an entry of the batch says so. -/
theorem get_applyAll_eq_some {k v : List UInt8} (h : (applyAll m batch).get k = some v) :
    m.get k = some v ∨ ∃ op ∈ batch, op.key = k ∧ op.value = some v := by
  induction batch generalizing m with
  | nil => exact .inl h
  | cons op batch ih =>
    rcases ih h with hold | ⟨op', hop', hkey, hvalue⟩
    · rw [Op.get_apply] at hold
      split at hold
      · next hkey => exact .inr ⟨op, List.mem_cons_self, hkey.symm, hold⟩
      · exact .inl hold
    · exact .inr ⟨op', List.mem_cons_of_mem _ hop', hkey, hvalue⟩

/-- Two entries for different keys, and what follows is for others. -/
theorem get_applyAll_puts {a x b y : List UInt8} {k : List UInt8} (hab : a ≠ b)
    (h : ∀ op ∈ batch, op.key ≠ k) :
    (applyAll m ([.put a x, .put b y] ++ batch)).get k =
      if k = a then some x else if k = b then some y else m.get k := by
  have happend : applyAll m ([.put a x, .put b y] ++ batch) =
      applyAll ((m.set a x).set b y) batch := rfl
  rw [happend, get_applyAll_of_ne h, GoMap.get_set, GoMap.get_set]
  by_cases ha : k = a
  · subst ha
    rw [if_neg hab, if_pos rfl, if_pos rfl]
  · rw [if_neg ha, if_neg ha]

theorem get_applyAll_of_delete (h : ∀ op ∈ batch, op.value = none) {k v : List UInt8} :
    (applyAll m batch).get k = some v ↔ m.get k = some v ∧ ∀ op ∈ batch, op.key ≠ k := by
  by_cases hmem : ∃ op ∈ batch, op.key = k
  · rw [get_applyAll_of_mem hmem fun op hop _ => h op hop]
    obtain ⟨op, hop, hkey⟩ := hmem
    constructor
    · intro habs
      cases habs
    · intro ⟨_, hne⟩
      exact absurd hkey (hne op hop)
  · have hne : ∀ op ∈ batch, op.key ≠ k := fun op hop hkey => hmem ⟨op, hop, hkey⟩
    rw [get_applyAll_of_ne hne]
    exact ⟨fun hget => ⟨hget, hne⟩, fun hget => hget.1⟩

structure DB where
  data : GoMap (List UInt8) (List UInt8)
  full : Bool
  closed : Bool

/-- `bytes.Compare(a, b) <= 0` -/
def keyLe : List UInt8 → List UInt8 → Bool
  | [], _ => true
  | _ :: _, [] => false
  | a :: as, b :: bs => decide (a.toNat < b.toNat) || (a == b && keyLe as bs)

namespace DB

/-- `leveldb.OpenFile`, of a directory with nothing in it. -/
def openFile : DB := { data := ∅, full := false, closed := false }

def get (db : DB) (key : List UInt8) : Except Error (List UInt8) :=
  if db.closed then .error .closed
  else match db.data.get key with
    | none => .error .notFound
    | some value => .ok value

def has (db : DB) (key : List UInt8) : Except Error Bool :=
  if db.closed then .error .closed else .ok (db.data.has key)

def write (db : DB) (batch : List Op) : Except Error Unit × DB :=
  if db.closed then (.error .closed, db)
  else if db.full then (.error .noSpace, db)
  else (.ok (), { db with data := applyAll db.data batch })

/-- What an iterator over `util.BytesPrefix(start)` goes through. -/
def iterate (db : DB) (start : List UInt8) : Except Error (List (List UInt8 × List UInt8)) :=
  if db.closed then .error .closed
  else
    let found := (db.data.entries.filter fun e => start.isPrefixOf e.1).map fun e => (e.1, e.2)
    .ok (found.insertionSort fun a b => keyLe a.1 b.1)

def close (db : DB) : DB := { db with closed := true }

/-- `leveldb.OpenFile`, of the directory that a closed database has left. -/
def reopen (db : DB) : DB := { db with closed := false }

/-- Open, and with room left. -/
structure Working (db : DB) : Prop where
  full : db.full = false
  closed : db.closed = false

variable {db : DB}

theorem working_openFile : openFile.Working := ⟨rfl, rfl⟩

theorem get_of_open (h : db.closed = false) (key : List UInt8) :
    db.get key = match db.data.get key with
      | none => .error .notFound
      | some value => .ok value := by
  simp [get, h]

theorem has_of_open (h : db.closed = false) (key : List UInt8) :
    db.has key = .ok (db.data.has key) := by
  simp [has, h]

theorem Working.write (h : db.Working) (batch : List Op) :
    db.write batch = (.ok (), { db with data := applyAll db.data batch }) := by
  simp [DB.write, h.full, h.closed]

theorem write_cases (db : DB) (batch : List Op) :
    (∃ err, db.write batch = (.error err, db)) ∨
      db.closed = false ∧
        db.write batch = (.ok (), { db with data := applyAll db.data batch }) := by
  unfold DB.write
  split
  · exact .inl ⟨_, rfl⟩
  · next hclosed =>
      split
      · exact .inl ⟨_, rfl⟩
      · exact .inr ⟨Bool.eq_false_iff.mpr hclosed, rfl⟩

/-- An iterator visits exactly the keys that start as asked, each once. -/
theorem iterate_of_open (h : db.closed = false) (start : List UInt8) :
    ∃ found, db.iterate start = .ok found ∧ (found.map (·.1)).Nodup ∧
      ∀ k v, (k, v) ∈ found ↔ db.data.get k = some v ∧ start <+: k := by
  refine ⟨_, by rw [iterate, if_neg (by simp [h])], ?_, ?_⟩
  · have hperm := (List.perm_insertionSort
      (fun a b : List UInt8 × List UInt8 => (keyLe a.1 b.1 : Prop))
      ((db.data.entries.filter fun e => start.isPrefixOf e.1).map fun e => (e.1, e.2)))
    rw [(hperm.map _).nodup_iff, List.map_map]
    exact db.data.nodup_keys.sublist (List.filter_sublist.map _)
  · intro k v
    rw [List.mem_insertionSort, GoMap.get_eq_some, List.mem_map]
    constructor
    · rintro ⟨⟨k', v'⟩, hmem, heq⟩
      cases heq
      obtain ⟨hentry, hstart⟩ := List.mem_filter.mp hmem
      exact ⟨hentry, List.isPrefixOf_iff_prefix.mp hstart⟩
    · rintro ⟨hentry, hstart⟩
      exact ⟨⟨k, v⟩, List.mem_filter.mpr ⟨hentry, List.isPrefixOf_iff_prefix.mpr hstart⟩, rfl⟩

end DB

end LevelDB
