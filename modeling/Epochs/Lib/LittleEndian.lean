import Mathlib.Algebra.Group.Int.Defs
import Mathlib.Algebra.GroupWithZero.Nat
import Mathlib.Tactic.Common

/-! Fixed-width little-endian numbers as byte lists. Writing keeps the low bytes of a number
that is too wide for its field, as an unchecked narrowing cast does.
-/

namespace Epochs.Lib

abbrev Bytes := List UInt8

/-- The low `width` bytes of a number, least significant first. -/
def leBytes : Nat → Nat → Bytes
  | 0, _ => []
  | width + 1, value => UInt8.ofNat value :: leBytes width (value / 256)

def leNat : Bytes → Nat
  | [] => 0
  | byte :: rest => byte.toNat + 256 * leNat rest

@[simp]
theorem length_leBytes (width value : Nat) : (leBytes width value).length = width := by
  induction width generalizing value with
  | zero => rfl
  | succ width ih => simp [leBytes, ih]

/-- Reading back a field gives the number modulo the field's range. -/
theorem leNat_leBytes (width value : Nat)
    : leNat (leBytes width value) = value % 256 ^ width := by
  induction width generalizing value with
  | zero => simp [leBytes, leNat, Nat.mod_one]
  | succ width ih =>
    have range : 256 ^ (width + 1) = 256 * 256 ^ width := Nat.pow_succ'
    simp only [leBytes, leNat, ih, UInt8.toNat_ofNat', range, Nat.mod_mul]

/-- A number inside the field's range survives the round trip. -/
theorem leNat_leBytes_of_lt {width value : Nat} (fits : value < 256 ^ width)
    : leNat (leBytes width value) = value := by
  rw [leNat_leBytes, Nat.mod_eq_of_lt fits]

/-- A byte string denotes a number below the range of its width. -/
theorem leNat_lt (bytes : Bytes) : leNat bytes < 256 ^ bytes.length := by
  induction bytes with
  | nil => simp [leNat]
  | cons byte rest ih =>
    have small := byte.toNat_lt
    simp only [leNat, List.length_cons, Nat.pow_succ']
    omega

/-- A byte string is the field of its own width that holds its number. -/
theorem leBytes_leNat (bytes : Bytes) : leBytes bytes.length (leNat bytes) = bytes := by
  induction bytes with
  | nil => rfl
  | cons byte rest ih =>
    have small : byte.toNat < 256 := byte.toNat_lt
    have head : UInt8.ofNat (byte.toNat + 256 * leNat rest) = byte := by
      apply UInt8.toNat.inj
      rw [UInt8.toNat_ofNat']
      omega
    have tail : (byte.toNat + 256 * leNat rest) / 256 = leNat rest := by omega
    simp only [List.length_cons, leBytes, leNat, head, tail, ih]

end Epochs.Lib
