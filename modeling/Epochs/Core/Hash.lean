import Epochs.Lib.LittleEndian
import Epochs.Lib.Fault

/-! Content hashes, their hexadecimal form, and the errors of the core library. -/

namespace Epochs

open Lib

structure Hash where
  bytes : Bytes
  size : bytes.length = 32
  deriving DecidableEq

inductive StorageError where
  | hashMismatch (expected computed : Hash)
  | notFound (hash : Hash)
  | crcMismatch
  | corrupt (message : String)
  deriving DecidableEq

inductive EpochsError where
  | commitNotFound (hash : Hash)
  | branchNotFound (name : String)
  | branchExists (name : String)
  | invalidTarget (target : String)
  | storage (error : StorageError)
  | codec (message : String)
  | invalidCommit (message : String)
  | io (message : String)
  deriving DecidableEq

/-- The BLAKE3 hash function, which the program links from outside. Every result holds for
each function to 32-byte values; a result that relies on collision resistance says so.
-/
class Blake3 where
  hash : Bytes → Hash

namespace Hash

def zero : Hash := ⟨List.replicate 32 0, by simp⟩

/-- The content hash of raw bytes. Hashing in parallel does not change the result. -/
def ofBytes [Blake3] (bytes : Bytes) : Hash := Blake3.hash bytes

def hexDigit (value : Nat) : Char :=
  if value < 10 then Char.ofNat (48 + value) else Char.ofNat (87 + value)

def hexByte (byte : UInt8) : List Char :=
  [hexDigit (byte.toNat / 16), hexDigit (byte.toNat % 16)]

def toHex (hash : Hash) : String := String.ofList (hash.bytes.flatMap hexByte)

def digitValue (code : UInt8) : Option Nat :=
  let n := code.toNat
  if 48 ≤ n ∧ n ≤ 57 then some (n - 48)
  else if 97 ≤ n ∧ n ≤ 102 then some (n - 87)
  else if 65 ≤ n ∧ n ≤ 70 then some (n - 55)
  else none

/-- `u8::from_str_radix` in base 16 on a two-byte string: a leading plus sign is accepted. -/
def fromStrRadix (first second : UInt8) : Option UInt8 :=
  if first = 43 then
    (digitValue second).map UInt8.ofNat
  else
    match digitValue first, digitValue second with
    | some high, some low => some (UInt8.ofNat (16 * high + low))
    | _, _ => none

def continuesWide (first second : UInt8) : Bool :=
  if first = 0xE0 then 0xA0 ≤ second ∧ second ≤ 0xBF
  else if first = 0xED then 0x80 ≤ second ∧ second ≤ 0x9F
  else if first = 0xF0 then 0x90 ≤ second ∧ second ≤ 0xBF
  else if first = 0xF4 then 0x80 ≤ second ∧ second ≤ 0x8F
  else 0x80 ≤ second ∧ second ≤ 0xBF

def utf8PairError (first second : UInt8) : Option String :=
  if first < 0x80 then
    if second < 0x80 then none
    else if 0xC2 ≤ second ∧ second ≤ 0xF4 then
      some "incomplete utf-8 byte sequence from index 1"
    else
      some "invalid utf-8 sequence of 1 bytes from index 1"
  else if 0xC2 ≤ first ∧ first ≤ 0xDF ∧ 0x80 ≤ second ∧ second ≤ 0xBF then none
  else if 0xE0 ≤ first ∧ first ≤ 0xF4 ∧ continuesWide first second then
    some "incomplete utf-8 byte sequence from index 0"
  else
    some "invalid utf-8 sequence of 1 bytes from index 0"

/-- Decoding of the pairs of a hash text. A pair is rejected when it cuts a multi-byte
character or when it holds a character that is no digit.
-/
def fromHexPairs : Bytes → Except EpochsError Bytes
  | first :: second :: rest =>
    match utf8PairError first second with
    | some error => .error (.invalidTarget s!"invalid hex encoding: {error}")
    | none =>
      match fromStrRadix first second with
      | none => .error (.invalidTarget "invalid hex digit: invalid digit found in string")
      | some byte =>
        match fromHexPairs rest with
        | .error error => .error error
        | .ok bytes => .ok (byte :: bytes)
  | _ => .ok []

/-- Each accepted pair yields one byte. -/
theorem fromHexPairs_length {source bytes : Bytes} (accepted : fromHexPairs source = .ok bytes)
    : bytes.length = source.length / 2 := by
  induction source using fromHexPairs.induct generalizing bytes with
  | case1 first second rest error invalid => simp [fromHexPairs, invalid] at accepted
  | case2 first second rest valid missing => simp [fromHexPairs, valid, missing] at accepted
  | case3 first second rest valid byte digit error failed ih =>
    simp [fromHexPairs, valid, digit, failed] at accepted
  | case4 first second rest valid byte digit tail parsed ih =>
    simp only [fromHexPairs, valid, digit, parsed, Except.ok.injEq] at accepted
    have length := ih parsed
    subst accepted
    simp only [List.length_cons]
    omega
  | case5 source short =>
    rcases source with _ | ⟨first, _ | ⟨second, rest⟩⟩
    · simp_all [fromHexPairs]
    · simp_all [fromHexPairs]
    · exact absurd rfl (short first second rest)

def fromHex (text : String) : Except EpochsError Hash :=
  let source := text.toUTF8.data.toList
  if wrong : source.length ≠ 64 then
    .error (.invalidTarget s!"hash must be 64 hex characters, got {source.length}")
  else
    match accepted : fromHexPairs source with
    | .error error => .error error
    | .ok bytes => .ok ⟨bytes, by rw [fromHexPairs_length accepted]; omega⟩

end Hash

end Epochs
