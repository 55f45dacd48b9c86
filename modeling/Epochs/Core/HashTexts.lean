import Epochs.Core.Hex
import Epochs.Lib.LossyText

/-! Which texts are read as hashes. A plus sign is read in the first place of each pair of digits, as
the number parser of the standard library accepts one before a number.
-/

namespace Epochs.Hash

open Lib

-- Hexadecimal digits

def isHexDigit (char : Char) : Bool :=
  ('0' ≤ char ∧ char ≤ '9') ∨ ('a' ≤ char ∧ char ≤ 'f') ∨ ('A' ≤ char ∧ char ≤ 'F')

def IsHashText (text : String) : Prop := text.toList.length = 64 ∧ text.toList.all isHexDigit

/-- Pairs of digits, any of which may have a plus sign in its first place. -/
def isPairs : List Char → Bool
  | [] => true
  | [_] => false
  | first :: second :: rest => (isHexDigit first || first = '+') && isHexDigit second && isPairs rest

/-- A hash text that has a plus sign in place of a digit. -/
structure Signed (text : String) : Prop where
  length : text.toList.length = 64
  pairs : isPairs text.toList
  sign : '+' ∈ text.toList

theorem isHexDigit_iff (char : Char)
    : isHexDigit char ↔ (48 ≤ char.toNat ∧ char.toNat ≤ 57) ∨ (97 ≤ char.toNat ∧ char.toNat ≤ 102)
        ∨ (65 ≤ char.toNat ∧ char.toNat ≤ 70) := by
  simp [isHexDigit, Char.le_def, UInt32.le_iff_toNat_le]

variable {byte : UInt8}

theorem digitValue_isSome {value : Nat} (digit : digitValue byte = some value)
    : (48 ≤ byte.toNat ∧ byte.toNat ≤ 57) ∨ (97 ≤ byte.toNat ∧ byte.toNat ≤ 102)
      ∨ (65 ≤ byte.toNat ∧ byte.toNat ≤ 70) := by
  unfold digitValue at digit
  grind

variable {char : Char} {more : Bytes}

/-- A byte below 128 at the front of a character's bytes is the whole character. -/
theorem encodeChar_of_ascii
    (encoded : String.utf8EncodeChar char = byte :: more) (ascii : byte.toNat < 128)
    : more = [] ∧ char.toNat = byte.toNat := by
  rw [String.utf8EncodeChar.eq_1] at encoded
  split at encoded
  · cases encoded
    refine ⟨rfl, ?_⟩
    rw [UInt8.toNat_ofNat']
    have same : char.toNat = char.val.toNat := rfl
    omega
  -- every other character starts with a byte of 192 or more
  all_goals
    split at encoded
    · cases encoded
      rw [UInt8.toNat_ofNat'] at ascii
      omega
    · split at encoded
      all_goals
        cases encoded
        rw [UInt8.toNat_ofNat'] at ascii
        omega

/-- A digit is one byte, whose value is displayed as the digit in lowercase. -/
theorem isHexDigit_spec (digit : isHexDigit char)
    : ∃ value < 16, String.utf8EncodeChar char = [UInt8.ofNat char.toNat]
        ∧ digitValue (UInt8.ofNat char.toNat) = some value ∧ UInt8.ofNat char.toNat ≠ 43
        ∧ hexDigit value = Text.lowerChar char := by
  have listed : ∀ code < 103,
      (48 ≤ code ∧ code ≤ 57) ∨ (97 ≤ code ∧ code ≤ 102) ∨ (65 ≤ code ∧ code ≤ 70)
      → ∃ value < 16, String.utf8EncodeChar (Char.ofNat code) = [UInt8.ofNat code]
        ∧ digitValue (UInt8.ofNat code) = some value ∧ UInt8.ofNat code ≠ 43
        ∧ hexDigit value = Text.lowerChar (Char.ofNat code) := by
    decide
  rw [isHexDigit_iff] at digit
  simpa only [Char.ofNat_toNat] using listed char.toNat (by omega) digit

-- Pairs

/-- A pair is read when its bytes are a number; such bytes are always text. -/
theorem fromHexPairs_eq_ok {first second : UInt8} {rest bytes : Bytes}
    : fromHexPairs (first :: second :: rest) = .ok bytes
      ↔ ∃ byte tail, fromStrRadix first second = some byte ∧ fromHexPairs rest = .ok tail
        ∧ bytes = byte :: tail := by
  have text {byte : UInt8} (read : fromStrRadix first second = some byte)
      : utf8PairError first second = none := by
    obtain ⟨lowFirst, lowSecond⟩ : first < 0x80 ∧ second < 0x80 := by
      unfold fromStrRadix at read
      split at read
      · rename_i plus
        obtain ⟨value, digit, -⟩ := Option.map_eq_some_iff.mp read
        have low := digitValue_isSome digit
        exact ⟨by rw [plus]; decide, by rw [UInt8.lt_iff_toNat_lt]; simp; omega⟩
      · split at read
        · rename_i high low
          have highDigit := digitValue_isSome high
          have lowDigit := digitValue_isSome low
          constructor
          all_goals
            rw [UInt8.lt_iff_toNat_lt]
            simp
            omega
        · cases read
    rw [utf8PairError, if_pos lowFirst, if_pos lowSecond]
  cases read : fromStrRadix first second with
  | none =>
    rw [fromHexPairs, read]
    cases utf8PairError first second <;> simp
  | some byte =>
    rw [fromHexPairs, text read, read]
    cases fromHexPairs rest with
    | error error => simp
    | ok tail => simp [eq_comm]

/-- What is read as a number is a digit or a plus sign, and then a digit. -/
theorem isHexDigit_of_fromStrRadix {first second : UInt8}
    (read : fromStrRadix first second = some byte)
    : ((digitValue first).isSome ∨ first = 43) ∧ (digitValue second).isSome := by
  unfold fromStrRadix at read
  split at read
  · rename_i plus
    obtain ⟨value, digit, -⟩ := Option.map_eq_some_iff.mp read
    exact ⟨.inr plus, by simp [digit]⟩
  · split at read
    · rename_i high low
      exact ⟨.inl (by simp [high]), by simp [low]⟩
    · cases read

/-- A character whose bytes start with a digit's byte is the digit. -/
theorem isHexDigit_of_byte
    (encoded : String.utf8EncodeChar char = byte :: more) (digit : (digitValue byte).isSome)
    : isHexDigit char ∧ more = [] := by
  obtain ⟨value, digit⟩ := Option.isSome_iff_exists.mp digit
  have code := digitValue_isSome digit
  obtain ⟨alone, same⟩ := encodeChar_of_ascii encoded (by omega)
  exact ⟨(isHexDigit_iff char).mpr (by rwa [same]), alone⟩

theorem eq_plus_of_byte
    (encoded : String.utf8EncodeChar char = 43 :: more) : char = '+' ∧ more = [] := by
  obtain ⟨alone, same⟩ := encodeChar_of_ascii encoded (by decide)
  refine ⟨?_, alone⟩
  rw [← Char.ofNat_toNat char, same]
  rfl

/-- The first place of a pair that is read holds a digit or a plus sign. -/
theorem first_of_byte
    (encoded : String.utf8EncodeChar char = byte :: more)
    (first : (digitValue byte).isSome ∨ byte = 43)
    : (isHexDigit char ∨ char = '+') ∧ more = [] := by
  rcases first with digit | rfl
  · obtain ⟨isDigit, alone⟩ := isHexDigit_of_byte encoded digit
    exact ⟨.inl isDigit, alone⟩
  · obtain ⟨plus, alone⟩ := eq_plus_of_byte encoded
    exact ⟨.inr plus, alone⟩

variable {chars : List Char}

/-- What is read as pairs of digits is written as such, up to plus signs. -/
theorem isPairs_of_fromHexPairs {bytes : Bytes}
    (read : fromHexPairs (chars.flatMap String.utf8EncodeChar) = .ok bytes)
    (even : (chars.flatMap String.utf8EncodeChar).length % 2 = 0)
    : isPairs chars := by
  induction chars using isPairs.induct generalizing bytes with
  | case1 => rfl
  | case2 char =>
    obtain ⟨byte, more, encoded⟩ := List.exists_cons_of_ne_nil (Utf8.encodeChar_ne_nil char)
    rw [List.flatMap_cons, List.flatMap_nil, List.append_nil, encoded] at read even
    cases more with
    | nil => simp at even
    | cons second rest =>
      obtain ⟨_, _, number, -⟩ := fromHexPairs_eq_ok.mp read
      cases (first_of_byte encoded (isHexDigit_of_fromStrRadix number).1).2
  | case3 first second rest ih =>
    obtain ⟨high, more, encoded⟩ := List.exists_cons_of_ne_nil (Utf8.encodeChar_ne_nil first)
    obtain ⟨low, others, encodedLow⟩ := List.exists_cons_of_ne_nil
      (Utf8.encodeChar_ne_nil second)
    rw [List.flatMap_cons, List.flatMap_cons, encoded, encodedLow] at read even
    cases more with
    | cons next tail =>
      obtain ⟨_, _, number, -⟩ := fromHexPairs_eq_ok.mp read
      cases (first_of_byte encoded (isHexDigit_of_fromStrRadix number).1).2
    | nil =>
      obtain ⟨_, _, number, later, -⟩ := fromHexPairs_eq_ok.mp read
      obtain ⟨firstByte, secondByte⟩ := isHexDigit_of_fromStrRadix number
      obtain ⟨isFirst, -⟩ := first_of_byte encoded firstByte
      obtain ⟨isSecond, rfl⟩ := isHexDigit_of_byte encodedLow secondByte
      have pairs := ih later (by
        simp only [List.cons_append, List.nil_append, List.length_cons] at even
        omega)
      simp [isPairs, isFirst, isSecond, pairs]

/-- Pairs are read, and digits are displayed again in lowercase. -/
theorem fromHexPairs_of_isPairs (pairs : isPairs chars)
    : (chars.flatMap String.utf8EncodeChar).length = chars.length
      ∧ ∃ bytes, fromHexPairs (chars.flatMap String.utf8EncodeChar) = .ok bytes
        ∧ (chars.all isHexDigit → bytes.flatMap hexByte = chars.map Text.lowerChar) := by
  induction chars using isPairs.induct with
  | case1 => exact ⟨rfl, [], rfl, fun _ => rfl⟩
  | case2 => cases pairs
  | case3 first second rest ih =>
    obtain ⟨⟨isFirst, isSecond⟩, later⟩ : ((isHexDigit first ∨ first = '+') ∧ isHexDigit second)
        ∧ isPairs rest := by
      simpa [isPairs] using pairs
    obtain ⟨length, bytes, read, display⟩ := ih later
    obtain ⟨low, lowLt, lowByte, lowValue, -, lowDisplay⟩ := isHexDigit_spec isSecond
    have plusByte : String.utf8EncodeChar '+' = [43] := rfl
    rcases isFirst with isFirst | rfl
    · obtain ⟨high, highLt, highByte, highValue, noPlus, highDisplay⟩ := isHexDigit_spec isFirst
      refine ⟨by simp [highByte, lowByte, length], UInt8.ofNat (16 * high + low) :: bytes, ?_, ?_⟩
      · rw [List.flatMap_cons, List.flatMap_cons, highByte, lowByte]
        refine fromHexPairs_eq_ok.mpr ⟨_, _, ?_, read, rfl⟩
        rw [fromStrRadix, if_neg noPlus, highValue, lowValue]
      · intro digits
        have value : (UInt8.ofNat (16 * high + low)).toNat = 16 * high + low := by
          rw [UInt8.toNat_ofNat']
          omega
        have highPart : (16 * high + low) / 16 = high := by omega
        have lowPart : (16 * high + low) % 16 = low := by omega
        rw [List.all_cons, List.all_cons, isFirst, isSecond] at digits
        rw [List.flatMap_cons, hexByte, value, highPart, lowPart, highDisplay, lowDisplay,
          display digits]
        rfl
    · refine ⟨by simp [plusByte, lowByte, length], UInt8.ofNat low :: bytes, ?_, ?_⟩
      · rw [List.flatMap_cons, List.flatMap_cons, plusByte, lowByte]
        refine fromHexPairs_eq_ok.mpr ⟨_, _, ?_, read, rfl⟩
        rw [fromStrRadix, if_pos rfl, lowValue]
        rfl
      · intro digits
        cases digits

-- Texts

theorem fromHex_eq_ok {text : String} {hash : Hash}
    : fromHex text = .ok hash
      ↔ (Utf8.encode text).length = 64 ∧ fromHexPairs (Utf8.encode text) = .ok hash.bytes := by
  unfold fromHex
  dsimp only
  split
  · rename_i wrong
    exact iff_of_false (by simp) fun read => wrong read.1
  · rename_i right
    have length : (Utf8.encode text).length = 64 := not_not.mp right
    split
    · rename_i error failed
      exact iff_of_false (by simp) fun read => by cases failed.symm.trans read.2
    · rename_i bytes read
      constructor
      · intro same
        cases same
        exact ⟨length, read⟩
      · rintro ⟨-, again⟩
        cases Except.ok.inj (read.symm.trans again)
        rfl

/-- The texts that are read as hashes. -/
theorem fromHex_isOk_iff (text : String)
    : (∃ hash, fromHex text = .ok hash) ↔ text.toList.length = 64 ∧ isPairs text.toList := by
  have encoded : Utf8.encode text = text.toList.flatMap String.utf8EncodeChar := by
    rw [← Utf8.encode_ofList, String.ofList_toList]
  constructor
  · rintro ⟨hash, read⟩
    obtain ⟨length, pairs⟩ := fromHex_eq_ok.mp read
    rw [encoded] at length pairs
    have isPairs := isPairs_of_fromHexPairs pairs (by omega)
    exact ⟨(fromHexPairs_of_isPairs isPairs).1.symm.trans length, isPairs⟩
  · rintro ⟨length, pairs⟩
    obtain ⟨same, bytes, read, -⟩ := fromHexPairs_of_isPairs pairs
    rw [← encoded] at same read
    have size : bytes.length = 32 := by
      rw [fromHexPairs_length read, same, length]
    exact ⟨⟨bytes, size⟩, fromHex_eq_ok.mpr ⟨same.trans length, read⟩⟩

theorem isPairs_of_digits (digits : chars.all isHexDigit)
    (even : chars.length % 2 = 0) : isPairs chars := by
  induction chars using isPairs.induct with
  | case1 => rfl
  | case2 => cases even
  | case3 first second rest ih =>
    obtain ⟨isFirst, isSecond, others⟩ : isHexDigit first ∧ isHexDigit second
        ∧ rest.all isHexDigit := by
      simpa using digits
    have later := ih others (by
      simp only [List.length_cons] at even
      omega)
    simp [isPairs, isFirst, isSecond, later]

theorem digits_of_isPairs (pairs : isPairs chars) (unsigned : '+' ∉ chars)
    : chars.all isHexDigit := by
  induction chars using isPairs.induct with
  | case1 => rfl
  | case2 => cases pairs
  | case3 first second rest ih =>
    obtain ⟨⟨isFirst, isSecond⟩, later⟩ : ((isHexDigit first ∨ first = '+') ∧ isHexDigit second)
        ∧ isPairs rest := by
      simpa [isPairs] using pairs
    rw [List.mem_cons, List.mem_cons, not_or, not_or] at unsigned
    have isFirst := isFirst.resolve_right fun plus => unsigned.1 plus.symm
    simp only [List.all_cons, isFirst, isSecond, ih later unsigned.2.2, Bool.and_self]

/-- The text is read as a hash exactly when it is a hash text, and the hash is displayed as the text
in lowercase.
-/
structure ReadsCanonically (text : String) : Prop where
  accepted : (∃ hash, fromHex text = .ok hash) ↔ IsHashText text
  displayed : ∀ hash, fromHex text = .ok hash → hash.toHex = Text.lower text

/-- Displayed hashes are read back, and every text that has no plus sign in the first place of a pair
of digits is read canonically.
-/
theorem fromHex_canonical_iff (hash : Hash) (text : String)
    : fromHex hash.toHex = .ok hash ∧ (ReadsCanonically text ↔ ¬ Signed text) := by
  refine ⟨fromHex_toHex hash, ?_, ?_⟩
  · intro canonical signed
    have read := (fromHex_isOk_iff text).mpr ⟨signed.length, signed.pairs⟩
    have digits := (canonical.accepted.mp read).2
    cases List.all_eq_true.mp digits '+' signed.sign
  · intro unsigned
    have digits (pairs : text.toList.length = 64 ∧ isPairs text.toList)
        : text.toList.all isHexDigit :=
      digits_of_isPairs pairs.2 fun sign => unsigned ⟨pairs.1, pairs.2, sign⟩
    refine ⟨?_, ?_⟩
    · rw [fromHex_isOk_iff]
      constructor
      · exact fun pairs => ⟨pairs.1, digits pairs⟩
      · exact fun hashText => ⟨hashText.1, isPairs_of_digits hashText.2 (by rw [hashText.1])⟩
    · intro hash read
      have pairs := (fromHex_isOk_iff text).mp ⟨hash, read⟩
      obtain ⟨-, bytes, readPairs, display⟩ := fromHexPairs_of_isPairs pairs.2
      rw [← Utf8.encode_ofList, String.ofList_toList, (fromHex_eq_ok.mp read).2] at readPairs
      rw [toHex, Except.ok.inj readPairs, display (digits pairs), Text.lower]

def signedText : String := String.ofList ('+' :: List.replicate 63 '0')

/-- The text is read as the zero hash. -/
theorem signedText_not_canonical : ¬ ReadsCanonically signedText := by
  intro canonical
  have read : (∃ hash, fromHex signedText = .ok hash) :=
    (fromHex_isOk_iff signedText).mpr (by decide +kernel)
  have digits := (canonical.accepted.mp read).2
  revert digits
  decide +kernel

end Epochs.Hash
