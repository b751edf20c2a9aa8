import DagMempool.Proofs.SignerMask
import Mathlib.Data.Set.Card

/-!
# The bit set as a set

A bit set under `Set` and `Clear`: what a bit is depends on the last call for its index alone,
and `Count` counts the indices for which that was a `Set`. The loop that counts the bits of a
word ends for every word, after as many turns as it has bits.
-/

namespace DagMempool

namespace BitSet

theorem testBit_and_not_bit (word : UInt64) {k i : Nat} (hk : k < 64) (hi : i < 64) :
    (word &&& ~~~(1 <<< UInt64.ofNat k)).toNat.testBit i =
      (word.toNat.testBit i && decide (k ≠ i)) := by
  have hlt : 2 ^ k < 2 ^ 64 := Nat.pow_lt_pow_right (by omega) hk
  have hnot : (~~~(1 <<< UInt64.ofNat k : UInt64)).toNat = 2 ^ 64 - (2 ^ k + 1) := by
    rw [UInt64.toNat_not, toNat_bit hk]
    show 2 ^ 64 - 1 - 2 ^ k = 2 ^ 64 - (2 ^ k + 1)
    omega
  rw [UInt64.toNat_and, hnot, Nat.testBit_and, Nat.testBit_two_pow_sub_succ hlt,
    Nat.testBit_two_pow]
  simp [hi]

variable (bs : BitSet) (ops : List BitOp) (op : BitOp)

@[simp] theorem length_clearBit (j : Nat) : (bs.clearBit j).length = bs.length :=
  List.length_modify _ bs (j / 64)

theorem isSet_clearBit (i j : Nat) :
    (bs.clearBit j).isSet i = true ↔ bs.isSet i = true ∧ i ≠ j := by
  have hj : j % 64 < 64 := Nat.mod_lt j (by omega)
  have hi : i % 64 < 64 := Nat.mod_lt i (by omega)
  rw [isSet_eq_true, isSet_eq_true, clearBit, List.getElem?_modify]
  cases hword : bs[i / 64]? with
  | none => simp
  | some word =>
    simp only [Option.map_eq_map, Option.map_some, Option.some.injEq, exists_eq_left']
    by_cases hsame : j / 64 = i / 64
    · rw [if_pos hsame, testBit_and_not_bit word hj hi, Bool.and_eq_true, decide_eq_true_eq]
      exact and_congr_right' ⟨fun h => by omega, fun h => by omega⟩
    · rw [if_neg hsame]
      exact ⟨fun h => ⟨h, fun heq => hsame (by omega)⟩, fun h => h.1⟩

/-! ## The loop

Each turn takes the lowest bit off the word, so the word is a bound on the turns and the turns are
the bits. -/

def popCountTurn (x : UInt64) : UInt64 := x &&& (x - 1)

/-- The loop ends when nothing is left of the word, having counted its turns. -/
theorem popCountLoop_turns (x : UInt64) (count : Nat) :
    ∃ turns, popCountLoop x count = count + turns ∧ popCountTurn^[turns] x = 0 ∧
      ∀ k < turns, popCountTurn^[k] x ≠ 0 := by
  induction x, count using popCountLoop.induct with
  | case1 count =>
    refine ⟨0, ?_, rfl, fun k hk => absurd hk (by omega)⟩
    rw [popCountLoop, if_pos rfl, Nat.add_zero]
  | case2 x count hx ih =>
    obtain ⟨turns, hcount, hzero, hbefore⟩ := ih
    refine ⟨turns + 1, ?_, hzero, fun k hk => ?_⟩
    · rw [popCountLoop, if_neg hx, hcount]
      omega
    · cases k with
      | zero => exact hx
      | succ k => exact hbefore k (by omega)

theorem popCount_turns (x : UInt64) :
    popCountTurn^[popCount x] x = 0 ∧ ∀ k < popCount x, popCountTurn^[k] x ≠ 0 := by
  obtain ⟨turns, hcount, hzero, hbefore⟩ := popCountLoop_turns x 0
  rw [Nat.zero_add] at hcount
  rw [popCount, hcount]
  exact ⟨hzero, hbefore⟩

/-! ## Sequences of calls

The words after a sequence of calls are those of the calls one by one. A call decides its own
index and no other, so each bit is what the last call for it made it. -/

inductive BitOp where
  | set (i : Nat)
  | clear (i : Nat)
  deriving DecidableEq, Repr

namespace BitOp

def index : BitOp → Nat
  | set i => i
  | clear i => i

def apply (bs : BitSet) : BitOp → BitSet
  | set i => bs.setBit i
  | clear i => bs.clearBit i

end BitOp

def applyOps (bs : BitSet) (ops : List BitOp) : BitSet := ops.foldl BitOp.apply bs

/-- The last of the calls that were for an index. -/
def lastOn (ops : List BitOp) (i : Nat) : Option BitOp :=
  (ops.filter fun op => op.index == i).getLast?

theorem lastOn_concat (i : Nat) :
    lastOn (ops ++ [op]) i = if op.index = i then some op else lastOn ops i := by
  rw [lastOn, List.filter_append]
  split
  · next h => simp [h]
  · next h => simp [h, lastOn]

theorem applyOps_concat : applyOps bs (ops ++ [op]) = op.apply (applyOps bs ops) := by
  rw [applyOps, List.foldl_append]
  rfl

theorem BitOp.length_apply : (op.apply bs).length = bs.length := by
  cases op with
  | set i => exact length_setBit bs i
  | clear i => exact length_clearBit bs i

theorem length_applyOps : (applyOps bs ops).length = bs.length := by
  induction ops using List.reverseRecOn with
  | nil => rfl
  | append_singleton ops op ih => rw [applyOps_concat, BitOp.length_apply, ih]

theorem BitOp.isSet_apply {op : BitOp} (hroom : op.index < 64 * bs.length) (i : Nat) :
    BitSet.isSet (op.apply bs) i = true ↔
      if op.index = i then op = .set i else BitSet.isSet bs i = true := by
  cases op with
  | set j =>
    show (bs.setBit j).isSet i = true ↔ _
    rw [isSet_setBit]
    by_cases hij : j = i
    · simp [index, hij, show i < 64 * bs.length from hij ▸ hroom]
    · simp [index, hij, Ne.symm hij]
  | clear j =>
    show (BitSet.clearBit bs j).isSet i = true ↔ _
    rw [isSet_clearBit]
    by_cases hij : j = i
    · simp [index, hij]
    · simp [index, hij, Ne.symm hij]

theorem isSet_applyOps (n : Nat) (ops : List BitOp)
    (hroom : ∀ op ∈ ops, op.index < 64 * (new n).length) (i : Nat) :
    (applyOps (new n) ops).isSet i = true ↔ lastOn ops i = some (.set i) := by
  induction ops using List.reverseRecOn with
  | nil =>
    show (new n).isSet i = true ↔ none = some (BitOp.set i)
    simp [isSet_new]
  | append_singleton ops op ih =>
    have hop : op.index < 64 * (applyOps (new n) ops).length := by
      rw [length_applyOps]
      exact hroom op (by simp)
    have hops := ih fun op' hop' => hroom op' (List.mem_append_left _ hop')
    rw [applyOps_concat, BitOp.isSet_apply _ hop, lastOn_concat, hops]
    split
    · rw [Option.some.injEq]
    · exact Iff.rfl

/-- `NewBitSet(n)` under any calls of `Set` and `Clear` for indices it has room for: a bit is
set exactly if the last call for it was a `Set`, and `Count` is the number of these indices.
The loop for one word comes to its end for every word, after as many turns as it counts. -/
theorem bitSet_implements_set (n : Nat) (ops : List BitOp)
    (hroom : ∀ op ∈ ops, op.index < 64 * (new n).length) :
    (∀ i, (applyOps (new n) ops).isSet i = true ↔ lastOn ops i = some (.set i)) ∧
      (applyOps (new n) ops).count = {i | lastOn ops i = some (.set i)}.ncard ∧
      ∀ x : UInt64, popCountTurn^[popCount x] x = 0 ∧
        ∀ k < popCount x, popCountTurn^[k] x ≠ 0 := by
  have hset := isSet_applyOps n ops hroom
  refine ⟨hset, ?_, popCount_turns⟩
  rw [count_eq_card, ← Set.ncard_coe_finset]
  refine congrArg Set.ncard (Set.ext fun i => ?_)
  rw [Finset.mem_coe, Finset.mem_filter, Finset.mem_range, Set.mem_ofPred_eq, ← hset]
  exact ⟨fun h => h.2, fun h => ⟨lt_of_isSet h, h⟩⟩

/-- Two words, with calls on both sides of the boundary and one index set twice. -/
theorem bitSet_implements_set_seventy :
    lastOn [.set 3, .set 64, .clear 3, .set 69, .set 64] 64 = some (.set 64) ∧
      (applyOps (new 70) [.set 3, .set 64, .clear 3, .set 69, .set 64]).isSet 64 = true ∧
      (applyOps (new 70) [.set 3, .set 64, .clear 3, .set 69, .set 64]).isSet 3 = false := by
  have hset := (bitSet_implements_set 70 [.set 3, .set 64, .clear 3, .set 69, .set 64]
    (by decide)).1
  refine ⟨by decide, (hset 64).mpr (by decide), ?_⟩
  rw [Bool.eq_false_iff, ne_eq, hset 3]
  decide

end BitSet

end DagMempool
