import DagMempool.Lib.Bytes

/-!
# Encodings that can be read back

A codec writes a value as bytes and reads one off the front of bytes, and reading
what was written gives the value back and leaves the rest alone. With the rest in
the law, codecs can be put one after the other. A list is written with its length in
front, in unary, so that no list is too long to be written.
-/

structure Codec (α : Type) where
  encode : α → List UInt8
  decode : List UInt8 → Option (α × List UInt8)
  decode_encode : ∀ a rest, decode (encode a ++ rest) = some (a, rest)

namespace Codec

variable {α β : Type}

/-- Values that are numbers below `256 ^ n`, in `n` bytes. -/
def fixed (n : Nat) (toNat : α → Nat) (ofNat : Nat → α) (hlt : ∀ a, toNat a < 256 ^ n)
    (hinv : ∀ a, ofNat (toNat a) = a) : Codec α where
  encode a := beBytes n (toNat a)
  decode bytes :=
    if bytes.length < n then none else some (ofNat (beNat (bytes.take n)), bytes.drop n)
  decode_encode a rest := by
    have htake : (beBytes n (toNat a) ++ rest).take n = beBytes n (toNat a) := by simp
    have hdrop : (beBytes n (toNat a) ++ rest).drop n = rest := by simp
    rw [if_neg (by simp), htake, hdrop, beNat_beBytes (hlt a), hinv]

/-- One after the other. -/
def pair (c : Codec α) (d : Codec β) : Codec (α × β) where
  encode p := c.encode p.1 ++ d.encode p.2
  decode bytes := (c.decode bytes).bind fun (a, rest) =>
    (d.decode rest).map fun (b, rest) => ((a, b), rest)
  decode_encode p rest := by
    rw [List.append_assoc, c.decode_encode, Option.bind_some]
    show (d.decode (d.encode p.2 ++ rest)).map _ = _
    rw [d.decode_encode]
    rfl

/-- The values of one type, written as values of another. -/
def via (c : Codec α) (out : β → α) (back : α → β)
    (hinv : ∀ b, back (out b) = b) : Codec β where
  encode b := c.encode (out b)
  decode bytes := (c.decode bytes).map fun (a, rest) => (back a, rest)
  decode_encode b rest := by simp [c.decode_encode, hinv]

/-- The count in front of a list: so many ones, and a zero. -/
def decodeCount : List UInt8 → Option (Nat × List UInt8)
  | [] => none
  | b :: rest =>
    if b = 0 then some (0, rest) else (decodeCount rest).map fun (n, rest) => (n + 1, rest)

theorem decodeCount_replicate (n : Nat) (rest : List UInt8) :
    decodeCount (List.replicate n 1 ++ 0 :: rest) = some (n, rest) := by
  induction n with
  | zero => rfl
  | succ n ih => simp [List.replicate_succ, decodeCount, ih]

def decodeMany (c : Codec α) : Nat → List UInt8 → Option (List α × List UInt8)
  | 0, bytes => some ([], bytes)
  | n + 1, bytes => (c.decode bytes).bind fun (a, rest) =>
    (decodeMany c n rest).map fun (l, rest) => (a :: l, rest)

theorem decodeMany_flatMap (c : Codec α) (l : List α) (rest : List UInt8) :
    c.decodeMany l.length (l.flatMap c.encode ++ rest) = some (l, rest) := by
  induction l with
  | nil => rfl
  | cons a l ih => simp [decodeMany, c.decode_encode, ih]

def list (c : Codec α) : Codec (List α) where
  encode l := List.replicate l.length 1 ++ 0 :: l.flatMap c.encode
  decode bytes := (decodeCount bytes).bind fun (n, rest) => c.decodeMany n rest
  decode_encode l rest := by
    rw [List.append_assoc, List.cons_append, decodeCount_replicate, Option.bind_some]
    exact c.decodeMany_flatMap l rest

end Codec
