import Mathlib.Data.Nat.Basic
import Mathlib.Tactic.Ring

/-!
# Little-endian integers

`leByte value index` is a byte of the little-endian form of a number, and `readLe` reads a number
back from a byte sequence given as a function of the position.
-/

namespace Feuer.Lib

/-- The byte at a position of the little-endian form of a number. -/
def leByte (value index : Nat) : UInt8 := UInt8.ofNat (value / 256 ^ index)

/-- The number in the first `width` bytes of a sequence. -/
def readLe (bytes : Nat → UInt8) : Nat → Nat
  | 0 => 0
  | width + 1 => readLe bytes width + (bytes width).toNat * 256 ^ width

variable {bytes other : Nat → UInt8}

/-- Reading looks at the first `width` bytes only. -/
theorem read_le_congr {width : Nat} (h : ∀ index < width, bytes index = other index) :
    readLe bytes width = readLe other width := by
  induction width with
  | zero => rfl
  | succ width ih =>
      rw [readLe, readLe, ih fun index hindex => h index (by omega), h width (by omega)]

/-- The value fits its bytes. -/
theorem read_le_lt (bytes : Nat → UInt8) (width : Nat) : readLe bytes width < 256 ^ width := by
  induction width with
  | zero => simp [readLe]
  | succ width ih =>
      have hbyte : (bytes width).toNat ≤ 255 := Nat.le_of_lt_succ (bytes width).toNat_lt
      have hmul := Nat.mul_le_mul_right (256 ^ width) hbyte
      rw [readLe, Nat.pow_succ]
      omega

/-- Reading a number back keeps its low bytes. -/
theorem read_le_le_byte (value width : Nat) :
    readLe (leByte value) width = value % 256 ^ width := by
  induction width with
  | zero => simp [readLe, Nat.mod_one]
  | succ width ih =>
      have hsplit : value % 256 ^ (width + 1) =
          value % 256 ^ width + 256 ^ width * (value / 256 ^ width % 256) := by
        rw [Nat.pow_succ, Nat.mod_mul]
      rw [readLe, ih, leByte, UInt8.toNat_ofNat', hsplit, Nat.mul_comm (256 ^ width)]

/-- A number that fits is read back. -/
theorem read_le_le_byte_of_lt {value width : Nat} (h : value < 256 ^ width) :
    readLe (leByte value) width = value := by
  rw [read_le_le_byte, Nat.mod_eq_of_lt h]

/-- Numbers that fit and have the same bytes are equal. -/
theorem eq_of_le_byte_eq {left right width : Nat} (hleft : left < 256 ^ width)
    (hright : right < 256 ^ width) (h : ∀ index < width, leByte left index = leByte right index) :
    left = right := by
  rw [← read_le_le_byte_of_lt hleft, ← read_le_le_byte_of_lt hright]
  exact read_le_congr h

/-- Writing a number that was read gives the bytes back. -/
theorem le_byte_read_le (bytes : Nat → UInt8) {width index : Nat} (h : index < width) :
    leByte (readLe bytes width) index = bytes index := by
  induction width with
  | zero => omega
  | succ width ih =>
      have hlt := read_le_lt bytes width
      rw [readLe, leByte]
      rcases Nat.lt_succ_iff_lt_or_eq.mp h with hless | rfl
      · -- The last byte is a multiple of 256 at every earlier position.
        have hpow : 256 ^ width = 256 ^ index * (256 * 256 ^ (width - index - 1)) := by
          rw [← Nat.pow_succ', ← Nat.pow_add]
          congr 1
          omega
        have hdiv : (readLe bytes width + (bytes width).toNat * 256 ^ width) / 256 ^ index =
            readLe bytes width / 256 ^ index +
              256 * ((bytes width).toNat * 256 ^ (width - index - 1)) := by
          rw [hpow, show (bytes width).toNat * (256 ^ index * (256 * 256 ^ (width - index - 1))) =
            256 ^ index * (256 * ((bytes width).toNat * 256 ^ (width - index - 1))) by ring]
          exact Nat.add_mul_div_left _ _ (Nat.pow_pos (by omega))
        have hsame := ih hless
        rw [leByte] at hsame
        rw [hdiv, ← hsame]
        apply UInt8.toNat_inj.mp
        simp only [UInt8.toNat_ofNat']
        omega
      · rw [Nat.add_mul_div_right _ _ (Nat.pow_pos (by omega)), Nat.div_eq_of_lt hlt, Nat.zero_add]
        exact UInt8.ofNat_toNat

/-- The little-endian form of a number, as `to_le_bytes`. -/
def toLeBytes (width value : Nat) : List UInt8 := (List.range width).map (leByte value)

/-- The number that a byte string is the little-endian form of, as `from_le_bytes`. -/
def fromLeBytes (bytes : List UInt8) : Nat := readLe (fun index => bytes.getD index 0) bytes.length

/-- A value is encoded in as many bytes as asked for. -/
@[simp] theorem length_to_le_bytes (width value : Nat) :
    (toLeBytes width value).length = width := by
  simp [toLeBytes]

/-- A value that fits is decoded from its bytes. -/
theorem from_le_bytes_to_le_bytes {width value : Nat} (h : value < 256 ^ width) :
    fromLeBytes (toLeBytes width value) = value := by
  rw [fromLeBytes, length_to_le_bytes]
  refine (read_le_congr fun index hindex => ?_).trans (read_le_le_byte_of_lt h)
  simp [toLeBytes, List.getD_eq_getElem?_getD, hindex]

/-- Bytes are the encoding of what they decode to. -/
theorem to_le_bytes_from_le_bytes (bytes : List UInt8) :
    toLeBytes bytes.length (fromLeBytes bytes) = bytes := by
  refine List.ext_getElem (by simp) fun index hleft hright => ?_
  simp only [toLeBytes, List.getElem_map, List.getElem_range, fromLeBytes,
    le_byte_read_le _ hright, List.getD_eq_getElem?_getD, List.getElem?_eq_getElem hright,
    Option.getD_some]

/-- A decoded value fits the bytes. -/
theorem from_le_bytes_lt (bytes : List UInt8) : fromLeBytes bytes < 256 ^ bytes.length :=
  read_le_lt _ _

end Feuer.Lib
