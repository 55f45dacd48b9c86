import Epochs.Core.Hash
import Epochs.Lib.Words

/-! The hexadecimal form of a hash is read back, and has no white space. -/

namespace Epochs.Hash

open Lib

def hexCode (value : Nat) : UInt8 :=
  if value < 10 then UInt8.ofNat (48 + value) else UInt8.ofNat (87 + value)

/-- A digit is one byte of text, which has the digit's value and is neither a sign nor part of
a longer character.
-/
theorem hexCode_spec
    : ∀ value < 16, String.utf8EncodeChar (hexDigit value) = [hexCode value]
        ∧ digitValue (hexCode value) = some value ∧ hexCode value ≠ 43 ∧ hexCode value < 0x80
        ∧ Text.isWhitespace (hexDigit value) = false := by
  decide

theorem fromHexPairs_hexByte (byte : UInt8) (rest : Bytes)
    : fromHexPairs ((hexByte byte).flatMap String.utf8EncodeChar ++ rest)
      = (fromHexPairs rest).map (byte :: ·) := by
  have small := byte.toNat_lt
  obtain ⟨high, highValue, notSign, highShort, -⟩ := hexCode_spec (byte.toNat / 16) (by omega)
  obtain ⟨low, lowValue, -, lowShort, -⟩ := hexCode_spec (byte.toNat % 16) (by omega)
  have value : UInt8.ofNat (16 * (byte.toNat / 16) + byte.toNat % 16) = byte := by
    rw [Nat.div_add_mod, UInt8.ofNat_toNat]
  simp only [hexByte, List.flatMap_cons, List.flatMap_nil, high, low, List.append_nil,
    List.cons_append, List.nil_append, fromHexPairs, utf8PairError, highShort, lowShort, if_true,
    fromStrRadix, notSign, if_false, highValue, lowValue, value]
  cases fromHexPairs rest <;> rfl

theorem fromHexPairs_toHex (bytes : Bytes)
    : fromHexPairs ((bytes.flatMap hexByte).flatMap String.utf8EncodeChar) = .ok bytes := by
  induction bytes with
  | nil => rfl
  | cons byte rest ih =>
    rw [List.flatMap_cons, List.flatMap_append, fromHexPairs_hexByte, ih]
    rfl

theorem length_hexBytes (bytes : Bytes)
    : ((bytes.flatMap hexByte).flatMap String.utf8EncodeChar).length = 2 * bytes.length := by
  induction bytes with
  | nil => rfl
  | cons byte rest ih =>
    have small := byte.toNat_lt
    have high := (hexCode_spec (byte.toNat / 16) (by omega)).1
    have low := (hexCode_spec (byte.toNat % 16) (by omega)).1
    simp only [List.flatMap_cons, hexByte, high, low, List.cons_append, List.nil_append,
      List.length_cons, ih]
    omega

/-- The displayed form of a hash is read back. -/
theorem fromHex_toHex (hash : Hash) : fromHex hash.toHex = .ok hash := by
  have source : hash.toHex.toUTF8.data.toList
      = (hash.bytes.flatMap hexByte).flatMap String.utf8EncodeChar :=
    Utf8.encode_ofList _
  have length : hash.toHex.toUTF8.data.toList.length = 64 := by
    rw [source, length_hexBytes, hash.size]
  have accepted : fromHexPairs hash.toHex.toUTF8.data.toList = .ok hash.bytes := by
    rw [source, fromHexPairs_toHex]
  unfold fromHex
  simp only [length, ne_eq, not_true_eq_false, dite_false]
  split
  · rename_i error failed
    rw [accepted] at failed
    cases failed
  · rename_i bytes found
    rw [accepted] at found
    cases found
    rfl

theorem toHex_solid (hash : Hash) : ∀ char ∈ hash.toHex.toList, Text.isWhitespace char = false := by
  intro char member
  rw [toHex, String.toList_ofList, List.mem_flatMap] at member
  obtain ⟨byte, -, digit⟩ := member
  have small := byte.toNat_lt
  simp only [hexByte, List.mem_cons, List.not_mem_nil, or_false] at digit
  rcases digit with rfl | rfl
  · exact (hexCode_spec _ (by omega)).2.2.2.2
  · exact (hexCode_spec _ (by omega)).2.2.2.2

end Epochs.Hash
