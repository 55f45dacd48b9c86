import Epochs.Lib.LittleEndian

/-! UTF-8 text: its bytes, the text of valid bytes, and where and why other bytes are rejected.
A rejected sequence ends before the first byte that cannot continue it.
-/

namespace Epochs.Lib.Utf8

def encode (text : String) : Bytes := text.toUTF8.data.toList

def decode (bytes : Bytes) : Option String := String.fromUTF8? ⟨bytes.toArray⟩

/-- What stands at the front of a byte string: a character of some bytes, some bytes that are
rejected, or the beginning of a character the bytes end in.
-/
inductive Front where
  | char (length : Nat)
  | invalid (length : Nat)
  | incomplete

def continues (byte : UInt8) : Bool := 0x80 ≤ byte ∧ byte ≤ 0xBF

def continuesWide (first second : UInt8) : Bool :=
  if first = 0xE0 then 0xA0 ≤ second ∧ second ≤ 0xBF
  else if first = 0xED then 0x80 ≤ second ∧ second ≤ 0x9F
  else if first = 0xF0 then 0x90 ≤ second ∧ second ≤ 0xBF
  else if first = 0xF4 then 0x80 ≤ second ∧ second ≤ 0x8F
  else continues second

def front (first : UInt8) (rest : Bytes) : Front :=
  if first < 0x80 then .char 1
  else if 0xC2 ≤ first ∧ first ≤ 0xDF then
    match rest with
    | [] => .incomplete
    | second :: _ => if continues second then .char 2 else .invalid 1
  else if 0xE0 ≤ first ∧ first ≤ 0xEF then
    match rest with
    | [] => .incomplete
    | [second] => if continuesWide first second then .incomplete else .invalid 1
    | second :: third :: _ =>
      if !continuesWide first second then .invalid 1
      else if continues third then .char 3 else .invalid 2
  else if 0xF0 ≤ first ∧ first ≤ 0xF4 then
    match rest with
    | [] => .incomplete
    | [second] => if continuesWide first second then .incomplete else .invalid 1
    | [second, third] =>
      if !continuesWide first second then .invalid 1
      else if continues third then .incomplete else .invalid 2
    | second :: third :: fourth :: _ =>
      if !continuesWide first second then .invalid 1
      else if !continues third then .invalid 2
      else if continues fourth then .char 4 else .invalid 3
  else .invalid 1

/-- The text of the first error, for bytes from an index on. The budget is their number. -/
def errorFrom : (budget index : Nat) → Bytes → Option String
  | 0, _, _ => none
  | _, _, [] => none
  | budget + 1, index, first :: rest =>
    match front first rest with
    | .char length => errorFrom budget (index + length) ((first :: rest).drop length)
    | .invalid length => some s!"invalid utf-8 sequence of {length} bytes from index {index}"
    | .incomplete => some s!"incomplete utf-8 byte sequence from index {index}"

def error? (bytes : Bytes) : Option String := errorFrom bytes.length 0 bytes

/-- The characters of a byte string, with every rejected sequence replaced. The budget is the
number of bytes.
-/
def lossyFrom : (budget : Nat) → Bytes → List Char
  | 0, _ => []
  | _, [] => []
  | budget + 1, first :: rest =>
    match front first rest with
    | .char length =>
      ((decode ((first :: rest).take length)).getD "").toList
        ++ lossyFrom budget ((first :: rest).drop length)
    | .invalid length => Char.ofNat 0xFFFD :: lossyFrom budget ((first :: rest).drop length)
    | .incomplete => [Char.ofNat 0xFFFD]

def decodeLossy (bytes : Bytes) : String := String.ofList (lossyFrom bytes.length bytes)

/-- The bytes of a text are valid and stand for it. -/
@[simp]
theorem decode_encode (text : String) : decode (encode text) = some text := by
  have bytes : (⟨text.toUTF8.data.toList.toArray⟩ : ByteArray) = text.toUTF8 := by
    rw [Array.toArray_toList]
  rw [decode, encode, bytes, String.fromUTF8?,
    dif_pos (show text.toUTF8.IsValidUTF8 from text.isValidUTF8)]
  rfl

theorem encode_ofList (chars : List Char)
    : encode (String.ofList chars) = chars.flatMap String.utf8EncodeChar := by
  simp [encode, String.toUTF8, List.utf8Encode]

/-- Valid bytes are the bytes of their text. -/
theorem encode_of_decode {bytes : Bytes} {text : String} (valid : decode bytes = some text)
    : encode text = bytes := by
  unfold decode String.fromUTF8? at valid
  split at valid
  · cases valid
    simp [encode, String.fromUTF8]
  · cases valid

end Epochs.Lib.Utf8
