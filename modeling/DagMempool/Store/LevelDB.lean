import DagMempool.Lib.LevelDB
import DagMempool.Store.Store

/-!
# What the stores on disk share

The stores over LevelDB keep everything in one space of byte strings. Each kind of
entry has its own first bytes, and the rest of a key is made of fields of fixed
width, so that a key says what it is for. Batches and certificates are written with
the codec of the wire, which is a parameter like the hash function is: `Cramberry`
says that what it has written it can read.
-/

namespace DagMempool

/-- `cramberry.Marshal` and `cramberry.Unmarshal`, for values of one type. -/
class Cramberry (α : Type) where
  marshal : α → Except GoError (List UInt8)
  unmarshal : List UInt8 → Except GoError α
  /-- Decoding undoes encoding. -/
  undone : ∀ a, ∃ data, marshal a = .ok data ∧ unmarshal data = .ok a

/-- `fmt.Errorf(what + ": %w", err)` -/
def GoError.wrap (what cause : String) : GoError := .other (what ++ ": " ++ cause)

/-- The bytes of a string of ASCII characters. -/
def ascii (s : List Char) : List UInt8 := s.map fun c => UInt8.ofNat c.toNat

/-- `copy(h[:], b)` into a zero hash: at most 32 bytes, and zeros where there are
fewer. -/
def Hash.copyFrom (b : List UInt8) : Hash :=
  BitVec.ofNat 256 (beNat ((b ++ List.replicate 32 0).take 32))

@[simp] theorem Hash.copyFrom_bytes (h : Hash) : Hash.copyFrom h.bytes = h := by
  have htake : (h.bytes ++ List.replicate 32 0).take 32 = h.bytes := by
    rw [List.take_append_of_le_length (by simp)]
    simp
  have hlt : h.toNat < 256 ^ 32 := h.isLt
  rw [Hash.copyFrom, htake, Hash.bytes, beNat_beBytes hlt]
  simp

/-- `binary.BigEndian.Uint64` of the first eight bytes. -/
def readUint64 (b : List UInt8) : UInt64 := UInt64.ofNat (beNat (b.take 8))

theorem readUint64_beBytes (v : UInt64) (rest : List UInt8) :
    readUint64 (beBytes 8 v.toNat ++ rest) = v := by
  have htake : (beBytes 8 v.toNat ++ rest).take 8 = beBytes 8 v.toNat := by simp
  rw [readUint64, htake, beNat_beBytes v.toNat_lt]
  exact UInt64.ofNat_toNat

@[simp] theorem readUint64_field (v : UInt64) : readUint64 (beBytes 8 v.toNat) = v := by
  simpa using readUint64_beBytes v []

theorem beBytes_uint64_inj {v w : UInt64} (h : beBytes 8 v.toNat = beBytes 8 w.toNat) :
    v = w :=
  UInt64.toNat_inj.mp (beBytes_inj v.toNat_lt w.toNat_lt h)

/-! ## Values filed under their digests -/

section

variable {α : Type} [Cramberry α]

/-- Under the keys of digests the data has these values of theirs, and nothing else. -/
structure Filed (digest : α → Hash) (key : Hash → List UInt8)
    (data : GoMap (List UInt8) (List UInt8)) (held : Hash → Option α) : Prop where
  keyed : ∀ {d x}, held d = some x → digest x = d
  stored : ∀ {d x}, held d = some x →
    ∃ bytes, data.get (key d) = some bytes ∧ Cramberry.unmarshal bytes = .ok x
  free : ∀ {d}, held d = none → data.get (key d) = none

namespace Filed

variable {digest : α → Hash} {key : Hash → List UInt8}
variable {data data' : GoMap (List UInt8) (List UInt8)} {held held' : Hash → Option α}

theorem has (h : Filed digest key data held) (d : Hash) :
    data.has (key d) = (held d).isSome := by
  rw [GoMap.has]
  cases hd : held d with
  | none =>
    rw [h.free hd]
    rfl
  | some x =>
    obtain ⟨bytes, hbytes, -⟩ := h.stored hd
    rw [hbytes]
    rfl

theorem saved (h : Filed digest key data held) {x : α} {bytes : List UInt8}
    (hread : Cramberry.unmarshal bytes = .ok x)
    (hget : ∀ d, data'.get (key d) = if d = digest x then some bytes else data.get (key d))
    (hheld' : ∀ d, held' d = if d = digest x then some x else held d) :
    Filed digest key data' held' where
  keyed {d y} hd := by
    rw [hheld'] at hd
    split at hd
    · next heq =>
        cases hd
        exact heq.symm
    · exact h.keyed hd
  stored {d y} hd := by
    rw [hheld'] at hd
    rw [hget]
    split at hd
    · next heq =>
        cases hd
        exact ⟨bytes, if_pos heq, hread⟩
    · next hne =>
        rw [if_neg hne]
        exact h.stored hd
  free {d} hd := by
    rw [hheld'] at hd
    rw [hget]
    split at hd
    · cases hd
    · next hne =>
        rw [if_neg hne]
        exact h.free hd

theorem removed (h : Filed digest key data held) {Stays : Hash → Prop}
    (hget : ∀ {d v}, data'.get (key d) = some v ↔ data.get (key d) = some v ∧ Stays d)
    (hheld' : ∀ {d x}, held' d = some x ↔ held d = some x ∧ Stays d) :
    Filed digest key data' held' where
  keyed {d x} hd := h.keyed (hheld'.mp hd).1
  stored {d x} hd := by
    obtain ⟨hold, hstays⟩ := hheld'.mp hd
    obtain ⟨bytes, hbytes, hread⟩ := h.stored hold
    exact ⟨bytes, hget.mpr ⟨hbytes, hstays⟩, hread⟩
  free {d} hd := by
    cases hk : data'.get (key d) with
    | none => rfl
    | some v =>
      obtain ⟨hold, hstays⟩ := hget.mp hk
      cases hheld : held d with
      | none => exact absurd (hold.symm.trans (h.free hheld)) (by simp)
      | some x =>
        rw [hheld'.mpr ⟨hheld, hstays⟩] at hd
        cases hd

end Filed

end

end DagMempool
