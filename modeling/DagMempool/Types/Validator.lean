import Mathlib.Data.Finset.Card
import DagMempool.Lib.GoMap
import DagMempool.Types.Hash

/-!
# Validators and validator sets

`SimpleValidatorSet` keeps the validators twice, in the order they were given
and indexed by `Validator.Index`; its `indexed` field says that the index was
built from the list, as `NewSimpleValidatorSet` does. Nothing makes the indices
distinct: with a repeated index the later validator wins the lookup while
`Count` counts both, so results about a set as a set of voters assume
`Distinct`.
-/

namespace DagMempool

/-- `Validator`, without the network address, which no modelled code reads. -/
structure Validator where
  index : UInt16
  publicKey : PublicKey
  power : Int64
  deriving DecidableEq, Repr

/-- The loop of `NewSimpleValidatorSet`: `byIndex[v.Index] = v`. -/
def indexValidators (validators : List Validator) : GoMap UInt16 Validator :=
  validators.foldl (fun m v => m.set v.index v) ∅

structure SimpleValidatorSet where
  validators : List Validator
  byIndex : GoMap UInt16 Validator
  epoch : UInt64
  indexed : byIndex = indexValidators validators

def newSimpleValidatorSet (validators : List Validator) (epoch : UInt64) :
    SimpleValidatorSet :=
  { validators, byIndex := indexValidators validators, epoch, indexed := rfl }

namespace SimpleValidatorSet

def count (vs : SimpleValidatorSet) : Nat := vs.validators.length

/-- `GetByIndex`; `none` is the nil pointer. -/
def getByIndex (vs : SimpleValidatorSet) (index : UInt16) : Option Validator :=
  vs.byIndex.get index

/-- `F`: the fault tolerance threshold. Go's `(0 - 1) / 3` truncates to `0`, as
the subtraction here does. -/
def f (vs : SimpleValidatorSet) : Nat := (vs.count - 1) / 3

def quorum (vs : SimpleValidatorSet) : Nat := 2 * vs.f + 1

def verifySignature [Crypto] (vs : SimpleValidatorSet) (validatorIdx : UInt16)
    (digest : Hash) (sig : Signature) : Bool :=
  match vs.getByIndex validatorIdx with
  | none => false
  | some v => v.publicKey.verify digest sig

/-- The indices are pairwise distinct. -/
def Distinct (vs : SimpleValidatorSet) : Prop :=
  (vs.validators.map (·.index)).Nodup
deriving Decidable

/-- The validator indices of the set. -/
def indices (vs : SimpleValidatorSet) : Finset UInt16 :=
  (vs.validators.map (·.index)).toFinset

end SimpleValidatorSet

/-! ## What the index holds -/

theorem get_foldl_set {l : List Validator} {m : GoMap UInt16 Validator}
    (hnodup : (l.map (·.index)).Nodup) {i : UInt16} {v : Validator} :
    (l.foldl (fun m v => m.set v.index v) m).get i = some v ↔
      (v ∈ l ∧ v.index = i) ∨ (m.get i = some v ∧ ∀ w ∈ l, w.index ≠ i) := by
  induction l generalizing m with
  | nil => simp
  | cons a l ih =>
    obtain ⟨ha, hl⟩ := List.nodup_cons.mp hnodup
    rw [List.foldl_cons, ih hl]
    have hnot : ∀ w ∈ l, w.index ≠ a.index := fun w hw he =>
      ha (List.mem_map.mpr ⟨w, hw, he⟩)
    rw [GoMap.get_set]
    by_cases hai : a.index = i
    · subst hai
      simp only [if_true, List.mem_cons]
      constructor
      · rintro (⟨hv, he⟩ | ⟨hv, -⟩)
        · exact absurd he (hnot v hv)
        · cases hv
          exact .inl ⟨.inl rfl, rfl⟩
      · rintro (⟨rfl | hv, he⟩ | ⟨-, hall⟩)
        · exact .inr ⟨rfl, hnot⟩
        · exact absurd he (hnot v hv)
        · exact absurd rfl (hall a (.inl rfl))
    · have hia : i ≠ a.index := fun h => hai h.symm
      simp only [if_neg hia, List.mem_cons]
      constructor
      · rintro (⟨hv, he⟩ | ⟨hm, hall⟩)
        · exact .inl ⟨.inr hv, he⟩
        · refine .inr ⟨hm, ?_⟩
          rintro w (rfl | hw)
          · exact hai
          · exact hall w hw
      · rintro (⟨rfl | hv, he⟩ | ⟨hm, hall⟩)
        · exact absurd he hai
        · exact .inl ⟨hv, he⟩
        · exact .inr ⟨hm, fun w hw => hall w (.inr hw)⟩

namespace SimpleValidatorSet

variable {vs : SimpleValidatorSet} {i : UInt16} {v : Validator}

theorem getByIndex_eq_some (hd : vs.Distinct) :
    vs.getByIndex i = some v ↔ v ∈ vs.validators ∧ v.index = i := by
  rw [getByIndex, vs.indexed, indexValidators, get_foldl_set hd]
  simp

theorem mem_indices_of_getByIndex (hd : vs.Distinct) (h : vs.getByIndex i = some v) :
    i ∈ vs.indices := by
  obtain ⟨hv, hi⟩ := (getByIndex_eq_some hd).mp h
  exact List.mem_toFinset.mpr (List.mem_map.mpr ⟨v, hv, hi⟩)

theorem card_indices (hd : vs.Distinct) : vs.indices.card = vs.count := by
  rw [indices, List.toFinset_card_of_nodup hd, List.length_map, count]

theorem verifySignature_eq_true [Crypto] {d : Hash} {s : Signature} :
    vs.verifySignature i d s = true ↔
      ∃ v, vs.getByIndex i = some v ∧ v.publicKey.verify d s = true := by
  unfold verifySignature
  cases vs.getByIndex i with
  | none => simp
  | some v => simp

end SimpleValidatorSet

end DagMempool
