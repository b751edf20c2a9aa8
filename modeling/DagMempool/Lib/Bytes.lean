import Mathlib.Data.List.Basic
import Mathlib.Tactic.Ring

/-!
# Fixed-width encodings

`beBytes n v` is `v` as `n` bytes, most significant first: what
`binary.BigEndian.PutUintN` writes. Two facts carry every argument about a
concatenation of such fields. A field determines its number, as long as the
number fits the width; and a concatenation of equally long blocks determines
the blocks, as long as their number is known. Without the number it does not:
nothing in the bytes says where one kind of block ends and the next begins.

`beNat` reads a field back, as `binary.BigEndian.UintN` does.
-/

/-- `v` in `n` bytes, big endian, reduced modulo `256 ^ n`. -/
def beBytes : Nat → Nat → List UInt8
  | 0, _ => []
  | n + 1, v => UInt8.ofNat (v / 256 ^ n) :: beBytes n v

@[simp] theorem length_beBytes (n v : Nat) : (beBytes n v).length = n := by
  induction n with
  | zero => rfl
  | succ n ih => simp [beBytes, ih]

theorem beBytes_mod_eq {n v w : Nat} (h : beBytes n v = beBytes n w) :
    v % 256 ^ n = w % 256 ^ n := by
  induction n with
  | zero => simp [Nat.mod_one]
  | succ n ih =>
    obtain ⟨hhead, htail⟩ := List.cons.inj h
    have hbyte : v / 256 ^ n % 256 = w / 256 ^ n % 256 := by
      have := congrArg UInt8.toNat hhead
      simpa using this
    rw [pow_succ, Nat.mod_mul, Nat.mod_mul, ih htail, hbyte]

theorem beBytes_inj {n v w : Nat} (hv : v < 256 ^ n) (hw : w < 256 ^ n)
    (h : beBytes n v = beBytes n w) : v = w := by
  have hmod := beBytes_mod_eq h
  rwa [Nat.mod_eq_of_lt hv, Nat.mod_eq_of_lt hw] at hmod

/-- The number some bytes spell, most significant first. -/
def beNat (bytes : List UInt8) : Nat := bytes.foldl (fun acc b => acc * 256 + b.toNat) 0

theorem foldl_beBytes (n v acc : Nat) :
    (beBytes n v).foldl (fun acc b => acc * 256 + b.toNat) acc =
      acc * 256 ^ n + v % 256 ^ n := by
  induction n generalizing acc with
  | zero => simp [beBytes, Nat.mod_one]
  | succ n ih =>
    have hbyte : (UInt8.ofNat (v / 256 ^ n)).toNat = v / 256 ^ n % 256 := by simp
    rw [beBytes, List.foldl_cons, ih, hbyte, pow_succ, Nat.mod_mul]
    ring

theorem beNat_beBytes {n v : Nat} (h : v < 256 ^ n) : beNat (beBytes n v) = v := by
  rw [beNat, foldl_beBytes, Nat.mod_eq_of_lt h]
  simp

/-- A field is at the front of some bytes only if it is what they start with. -/
theorem eq_of_isPrefix_append {a b c : List UInt8} (hlen : a.length = b.length)
    (h : a <+: b ++ c) : a = b := by
  obtain ⟨rest, hrest⟩ := h
  exact (List.append_inj hrest hlen).1

variable {α : Type}

theorem length_flatMap_blocks {f : α → List UInt8} {k : Nat}
    (hlen : ∀ a, (f a).length = k) (l : List α) :
    (l.flatMap f).length = k * l.length := by
  induction l with
  | nil => simp
  | cons a l ih => simp [hlen, ih]; ring

/-- Equally many blocks of one width, then the rest: the bytes determine both. -/
theorem flatMap_blocks_inj {f : α → List UInt8} {k : Nat}
    (hlen : ∀ a, (f a).length = k) (hinj : ∀ a b, f a = f b → a = b) :
    ∀ {l₁ l₂ : List α} {r₁ r₂ : List UInt8}, l₁.length = l₂.length →
      l₁.flatMap f ++ r₁ = l₂.flatMap f ++ r₂ → l₁ = l₂ ∧ r₁ = r₂ := by
  intro l₁
  induction l₁ with
  | nil =>
    intro l₂ r₁ r₂ hl h
    have hnil : l₂ = [] := List.length_eq_zero_iff.mp (by simpa using hl.symm)
    subst hnil
    exact ⟨rfl, by simpa using h⟩
  | cons a l₁ ih =>
    intro l₂ r₁ r₂ hl h
    cases l₂ with
    | nil => cases hl
    | cons b l₂ =>
      simp only [List.flatMap_cons, List.append_assoc] at h
      obtain ⟨hab, hrest⟩ := List.append_inj h (by rw [hlen, hlen])
      obtain ⟨hl', hr⟩ := ih (by simpa using hl) hrest
      exact ⟨by rw [hinj a b hab, hl'], hr⟩
