import DagMempool.Types.Ideal

/-!
# The signer mask

A certificate has its votes twice, as a list and as a bit set of their validators. The bit set
is made for 256 validators, while an index has sixteen bits, and a bit outside the set is
dropped without a word: the mask has the voters below 256, each once, and none of the others.
-/

namespace DagMempool

namespace BitSet

variable {k : Nat} (bs : BitSet)

theorem toNat_bit (hk : k < 64) : (1 <<< UInt64.ofNat k : UInt64).toNat = 2 ^ k := by
  have hlt : 2 ^ k < 2 ^ 64 := Nat.pow_lt_pow_right (by omega) hk
  have hofNat : (UInt64.ofNat k).toNat = k := UInt64.toNat_ofNat_of_lt' (by
    show k < 2 ^ 64
    omega)
  rw [UInt64.toNat_shiftLeft, hofNat, Nat.mod_eq_of_lt hk, Nat.shiftLeft_eq]
  show 1 * 2 ^ k % 2 ^ 64 = 2 ^ k
  rw [Nat.one_mul, Nat.mod_eq_of_lt hlt]

theorem and_bit_ne_zero (word : UInt64) (hk : k < 64) :
    (word &&& (1 <<< UInt64.ofNat k) != 0) = word.toNat.testBit k := by
  have hiff : word &&& (1 <<< UInt64.ofNat k) = 0 ↔ word.toNat.testBit k = false := by
    rw [← UInt64.toNat_inj, UInt64.toNat_and, toNat_bit hk, Nat.and_two_pow]
    cases word.toNat.testBit k with
    | false => simp
    | true => simp
  rw [bne, Bool.eq_iff_iff, Bool.not_eq_true', beq_eq_false_iff_ne, ne_eq, hiff]
  simp

theorem testBit_or_bit (word : UInt64) (hk : k < 64) (i : Nat) :
    (word ||| (1 <<< UInt64.ofNat k)).toNat.testBit i =
      (word.toNat.testBit i || decide (k = i)) := by
  rw [UInt64.toNat_or, toNat_bit hk, Nat.testBit_or, Nat.testBit_two_pow]

/-- Kernighan's loop makes as many turns as the word has bits. -/
theorem popCountLoop_eq (x : UInt64) (count : Nat) :
    popCountLoop x count = count + Nat.count (fun i => x.toNat.testBit i = true) 64 := by
  induction x, count using popCountLoop.induct with
  | case1 count =>
    rw [popCountLoop, if_pos rfl]
    simp [Nat.count_eq_card_filter_range]
  | case2 x count hx ih =>
    have hne : x.toNat ≠ 0 := fun h => hx (UInt64.toNat_inj.mp h)
    have hand : (x &&& (x - 1)).toNat = x.toNat &&& (x.toNat - 1) := by
      rw [UInt64.toNat_and, UInt64.toNat_sub_of_le x 1 (UInt64.le_iff_toNat_le.mpr (by
        show 1 ≤ x.toNat
        omega))]
      rfl
    rw [popCountLoop, if_neg hx, ih, hand, Bits.count_and_sub_one hne x.toNat_lt]
    omega

theorem popCount_eq (x : UInt64) :
    popCount x = Nat.count (fun i => x.toNat.testBit i = true) 64 := by
  rw [popCount, popCountLoop_eq, Nat.zero_add]

theorem isSet_eq_true {bs : BitSet} {i : Nat} :
    bs.isSet i = true ↔ ∃ word, bs[i / 64]? = some word ∧ word.toNat.testBit (i % 64) = true := by
  unfold isSet
  cases bs[i / 64]? with
  | none => simp
  | some word => simp [and_bit_ne_zero word (Nat.mod_lt i (by omega))]

theorem lt_of_isSet {bs : BitSet} {i : Nat} (h : bs.isSet i = true) : i < 64 * bs.length := by
  obtain ⟨word, hword, -⟩ := isSet_eq_true.mp h
  have hlt := (List.getElem?_eq_some_iff.mp hword).1
  omega

@[simp] theorem length_setBit (j : Nat) : (bs.setBit j).length = bs.length :=
  List.length_modify _ bs (j / 64)

theorem isSet_setBit (i j : Nat) :
    (bs.setBit j).isSet i = true ↔ bs.isSet i = true ∨ i = j ∧ j < 64 * bs.length := by
  have hk : j % 64 < 64 := Nat.mod_lt j (by omega)
  rw [isSet_eq_true, isSet_eq_true, setBit, List.getElem?_modify]
  cases hword : bs[i / 64]? with
  | none =>
    have hge := List.getElem?_eq_none_iff.mp hword
    have hout : ¬ (i = j ∧ j < 64 * bs.length) := by
      rintro ⟨rfl, hlt⟩
      omega
    simp [hout]
  | some word =>
    have hlt := (List.getElem?_eq_some_iff.mp hword).1
    simp only [Option.map_eq_map, Option.map_some, Option.some.injEq, exists_eq_left']
    by_cases hsame : j / 64 = i / 64
    · rw [if_pos hsame, testBit_or_bit word hk, Bool.or_eq_true, decide_eq_true_eq]
      exact or_congr_right ⟨fun h => by omega, fun h => by omega⟩
    · rw [if_neg hsame]
      exact ⟨.inl, fun h => h.resolve_right fun heq => hsame (by omega)⟩

theorem isSet_new (n i : Nat) : (new n).isSet i = false := by
  rw [Bool.eq_false_iff]
  intro h
  obtain ⟨word, hword, hbit⟩ := isSet_eq_true.mp h
  have hzero : word = 0 := List.eq_of_mem_replicate (List.mem_of_getElem? hword)
  rw [hzero] at hbit
  exact absurd hbit (by simp)

theorem foldl_count (start : Nat) :
    bs.foldl (fun count word => count + popCount word) start =
      start + Nat.count (fun i => bs.isSet i = true) (64 * bs.length) := by
  induction bs generalizing start with
  | nil => simp
  | cons word bs ih =>
    have hfirst : Nat.count (fun i => isSet (word :: bs) i = true) 64 = popCount word := by
      rw [popCount_eq, Nat.count_eq_card_filter_range, Nat.count_eq_card_filter_range]
      refine congrArg Finset.card (Finset.filter_congr fun i hi => ?_)
      rw [Finset.mem_range] at hi
      rw [isSet_eq_true, Nat.div_eq_of_lt hi, Nat.mod_eq_of_lt hi]
      simp
    have hrest : (fun i => isSet (word :: bs) (64 + i) = true) =
        fun i => isSet bs i = true := by
      funext i
      rw [isSet_eq_true, isSet_eq_true, Nat.add_div_left i (by omega), Nat.add_mod_left]
      rfl
    have hlen : 64 * (word :: bs).length = 64 + 64 * bs.length := by
      rw [List.length_cons]
      omega
    rw [List.foldl_cons, ih, hlen, Nat.count_add, hfirst]
    simp only [hrest]
    omega

theorem count_eq_card :
    bs.count = ((Finset.range (64 * bs.length)).filter fun i => bs.isSet i = true).card := by
  rw [count, foldl_count, Nat.zero_add, Nat.count_eq_card_filter_range]

end BitSet

namespace Certificate

theorem isSet_foldl_setBit (votes : List Vote) (mask : BitSet) (i : Nat) :
    let marked := votes.foldl (fun mask v => BitSet.setBit mask v.validator.toNat) mask
    marked.length = mask.length ∧
      (marked.isSet i = true ↔ mask.isSet i = true ∨
        i < 64 * mask.length ∧ ∃ v ∈ votes, v.validator.toNat = i) := by
  induction votes generalizing mask with
  | nil => simp
  | cons v votes ih =>
    obtain ⟨hlen, hset⟩ := ih (mask.setBit v.validator.toNat)
    rw [BitSet.length_setBit] at hlen hset
    refine ⟨hlen, ?_⟩
    rw [List.foldl_cons, hset, BitSet.isSet_setBit, List.exists_mem_cons_iff]
    constructor
    · rintro ((hold | ⟨rfl, hlt⟩) | ⟨hlt, hv⟩)
      · exact .inl hold
      · exact .inr ⟨hlt, .inl rfl⟩
      · exact .inr ⟨hlt, .inr hv⟩
    · rintro (hold | ⟨hlt, rfl | hv⟩)
      · exact .inl (.inl hold)
      · exact .inl (.inr ⟨rfl, hlt⟩)
      · exact .inr ⟨hlt, hv⟩

variable [SliceSort]

theorem isSet_signerMask (header : Header) (votes : List Vote) (i : Nat) :
    (new header votes).signerMask.length = 4 ∧
      ((new header votes).signerMask.isSet i = true ↔
        i < 256 ∧ ∃ v ∈ (new header votes).votes, v.validator.toNat = i) := by
  obtain ⟨hlen, hset⟩ := isSet_foldl_setBit (new header votes).votes (BitSet.new 256) i
  have hwords : (BitSet.new 256).length = 4 := by simp [BitSet.new]
  rw [hwords] at hlen hset
  refine ⟨hlen, ?_⟩
  rw [BitSet.isSet_new] at hset
  exact hset.trans (by simp)

/-- The mask has the voters whose index it has room for, whatever the votes: it answers for
each index below 256 whether the validator voted, it counts those that did, each once, and it
has none of the others. -/
theorem signer_mask_mirrors_votes (header : Header) (votes : List Vote) :
    (∀ i : UInt16, (new header votes).hasVoteFrom i = true ↔
      i.toNat < 256 ∧ ∃ v ∈ (new header votes).votes, v.validator = i) ∧
    (new header votes).signerMask.count =
      (((new header votes).votes.map (·.validator)).toFinset.filter
        fun i => i.toNat < 256).card := by
  constructor
  · intro i
    rw [hasVoteFrom, (isSet_signerMask header votes i.toNat).2]
    simp only [UInt16.toNat_inj]
  · rw [BitSet.count_eq_card]
    symm
    refine Finset.card_bij (fun i _ => i.toNat) ?_ ?_ ?_
    · intro i hi
      simp only [Finset.mem_filter, List.mem_toFinset, List.mem_map] at hi
      obtain ⟨⟨v, hv, rfl⟩, hlt⟩ := hi
      rw [Finset.mem_filter, Finset.mem_range]
      have hset := (isSet_signerMask header votes v.validator.toNat).2.mpr ⟨hlt, v, hv, rfl⟩
      exact ⟨BitSet.lt_of_isSet hset, hset⟩
    · intro i _ j _ heq
      exact UInt16.toNat_inj.mp heq
    · intro n hn
      rw [Finset.mem_filter] at hn
      obtain ⟨hlt, v, hv, rfl⟩ := (isSet_signerMask header votes n).2.mp hn.2
      refine ⟨v.validator, ?_, rfl⟩
      simp only [Finset.mem_filter, List.mem_toFinset, List.mem_map]
      exact ⟨⟨v, hv, rfl⟩, hlt⟩

end Certificate

/-- A certificate with votes of validators 255, which the mask has room for, and 256. -/
def edgeCertificate : Certificate :=
  idealCertificate (idealHeader 0 0 [] [] 0) [256, 255, 256]

/-- Of these two voters the mask has the first only. -/
theorem voter_missing_in_mask :
    (∃ v ∈ edgeCertificate.votes, v.validator = 256) ∧ edgeCertificate.hasVoteFrom 256 = false ∧
      edgeCertificate.hasVoteFrom 255 = true := by
  decide +kernel

end DagMempool
