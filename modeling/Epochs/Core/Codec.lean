import Epochs.Core.Hash
import Epochs.Lib.Decoder

/-! The little-endian binary codecs of the core library. Encoders are byte strings, so the
pooled encoder buffer of the program is the concatenation of what is written to it.
-/

namespace Epochs

open Lib

-- Writing

def writeU8 (value : Nat) : Bytes := leBytes 1 value

def writeU16 (value : Nat) : Bytes := leBytes 2 value

def writeU32 (value : Nat) : Bytes := leBytes 4 value

def writeU48 (value : Nat) : Bytes := leBytes 6 value

def writeU64 (value : Nat) : Bytes := leBytes 8 value

def writeHash (hash : Hash) : Bytes := hash.bytes

@[simp]
theorem length_writeHash (hash : Hash) : (writeHash hash).length = 32 := hash.size

@[simp]
theorem length_writeU8 (value : Nat) : (writeU8 value).length = 1 := length_leBytes 1 value

@[simp]
theorem length_writeU16 (value : Nat) : (writeU16 value).length = 2 := length_leBytes 2 value

@[simp]
theorem length_writeU32 (value : Nat) : (writeU32 value).length = 4 := length_leBytes 4 value

@[simp]
theorem length_writeU48 (value : Nat) : (writeU48 value).length = 6 := length_leBytes 6 value

@[simp]
theorem length_writeU64 (value : Nat) : (writeU64 value).length = 8 := length_leBytes 8 value

-- Reading

abbrev ByteDecoder (α : Type) := Decoder EpochsError α

namespace ByteDecoder

def eof (needed have_ : Nat) : EpochsError :=
  .codec s!"unexpected EOF: need {needed} bytes, have {have_}"

def readSlice (len : Nat) : ByteDecoder Bytes := fun source =>
  if len ≤ source.length then .ok (source.take len, source.drop len)
  else .error (eof len source.length)

def readUint (width : Nat) : ByteDecoder Nat := do
  let slice ← readSlice width
  pure (leNat slice)

def readU8 : ByteDecoder Nat := readUint 1

def readU16 : ByteDecoder Nat := readUint 2

def readU32 : ByteDecoder Nat := readUint 4

def readU48 : ByteDecoder Nat := readUint 6

def readU64 : ByteDecoder Nat := readUint 8

def readHash : ByteDecoder Hash := fun source =>
  if enough : 32 ≤ source.length then
    .ok (⟨source.take 32, by simp [enough]⟩, source.drop 32)
  else .error (eof 32 source.length)

-- What each reader reads back

open Decoder

/-- A slice read returns the bytes it was asked for. -/
theorem readSlice_reads (bytes : Bytes) : Reads (readSlice bytes.length) bytes bytes := by
  intro rest
  simp [readSlice]

theorem readUint_reads (width value : Nat)
    : Reads (readUint width) (leBytes width value) (value % 256 ^ width) := by
  have slice := readSlice_reads (leBytes width value)
  rw [length_leBytes] at slice
  rw [← leNat_leBytes]
  exact slice.result

theorem readU8_reads (value : Nat) : Reads readU8 (writeU8 value) (value % 256) :=
  readUint_reads 1 value

theorem readU16_reads (value : Nat) : Reads readU16 (writeU16 value) (value % 65536) :=
  readUint_reads 2 value

theorem readU32_reads (value : Nat) : Reads readU32 (writeU32 value) (value % 2 ^ 32) :=
  readUint_reads 4 value

theorem readU48_reads (value : Nat) : Reads readU48 (writeU48 value) (value % 2 ^ 48) :=
  readUint_reads 6 value

theorem readU64_reads (value : Nat) : Reads readU64 (writeU64 value) (value % 2 ^ 64) :=
  readUint_reads 8 value

theorem readHash_reads (hash : Hash) : Reads readHash (writeHash hash) hash := by
  intro rest
  have size := hash.size
  have whole : (hash.bytes ++ rest).take 32 = hash.bytes := by simp [← size]
  have left : (hash.bytes ++ rest).drop 32 = rest := by simp [← size]
  simp [readHash, writeHash, whole, left, size]

variable {source rest : Bytes}

/-- A slice read consumes the bytes it returns and leaves the rest. -/
theorem readSlice_eq_ok {len : Nat} {slice : Bytes}
    : readSlice len source = .ok (slice, rest) ↔ source = slice ++ rest ∧ slice.length = len := by
  unfold readSlice
  constructor
  · intro decoded
    split at decoded
    · rename_i enough
      simp only [Except.ok.injEq, Prod.mk.injEq] at decoded
      obtain ⟨rfl, rfl⟩ := decoded
      exact ⟨(List.take_append_drop len source).symm, by simp [enough]⟩
    · simp at decoded
  · rintro ⟨rfl, rfl⟩
    simp

theorem readHash_eq_ok {hash : Hash}
    : readHash source = .ok (hash, rest) ↔ source = hash.bytes ++ rest := by
  constructor
  · intro decoded
    unfold readHash at decoded
    split at decoded
    · simp only [Except.ok.injEq, Prod.mk.injEq] at decoded
      obtain ⟨rfl, rfl⟩ := decoded
      exact (List.take_append_drop 32 source).symm
    · simp at decoded
  · rintro rfl
    exact readHash_reads hash rest

/-- A number read consumes its width and returns a value in the width's range. -/
theorem readUint_eq_ok {width value : Nat}
    (decoded : readUint width source = .ok (value, rest))
    : ∃ slice, source = slice ++ rest ∧ slice.length = width ∧ value = leNat slice := by
  simp only [readUint, bind_eq_ok, readSlice_eq_ok] at decoded
  obtain ⟨slice, left, ⟨split, length⟩, same⟩ := decoded
  simp only [pure_apply, Except.ok.injEq, Prod.mk.injEq] at same
  exact ⟨slice, by rw [split, same.2], length, same.1.symm⟩

/-- A number read consumes the encoding of its value. -/
theorem readUint_inverts (width : Nat)
    : Inverts (readUint width) (leBytes width) fun value => value < 256 ^ width := by
  intro source value rest decoded
  obtain ⟨slice, split, length, rfl⟩ := readUint_eq_ok decoded
  subst length
  exact ⟨by rw [leBytes_leNat, split], leNat_lt slice⟩

theorem readHash_inverts : Inverts readHash writeHash fun _ => True :=
  fun _ _ _ decoded => ⟨readHash_eq_ok.mp decoded, trivial⟩

theorem readUint_lt {width value : Nat}
    (decoded : readUint width source = .ok (value, rest))
    : value < 256 ^ width :=
  (readUint_inverts width _ _ _ decoded).2

end ByteDecoder
end Epochs
