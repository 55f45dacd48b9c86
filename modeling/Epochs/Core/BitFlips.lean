import Epochs.Core.Blake3
import Epochs.Core.Record
import Epochs.Lib.Crc
import Epochs.Lib.Substituted

/-! Damage to a stored record. The checksum tells apart records of one length that differ in a
byte; damage to the length field moves the checksum, and there it is the content hash that
gives the damage away.
-/

namespace Epochs

open Lib

-- The checksum

/-- The polynomial of IEEE 802.3, lowest term first. -/
def crcPolynomial : BitVec 32 := 0xEDB88320

theorem toBitVec_crcShift (c : UInt32)
    : (crcShift c).toBitVec = Crc.shift crcPolynomial c.toBitVec := by
  have lowest : c &&& 1 ≠ 0 ↔ c.toBitVec.getLsbD 0 = true := by
    rw [ne_eq, ← UInt32.toBitVec_inj, UInt32.toBitVec_and]
    change ¬ c.toBitVec &&& 1#32 = 0#32 ↔ _
    rw [BitVec.and_one_eq_setWidth_ofBool_getLsbD]
    cases c.toBitVec.getLsbD 0 <;> decide
  by_cases odd : c &&& 1 ≠ 0
  · rw [crcShift, if_pos odd, Crc.shift, if_pos (lowest.mp odd)]
    rfl
  · rw [crcShift, if_neg odd, Crc.shift, if_neg (mt lowest.mpr odd)]
    rfl

theorem toBitVec_crcTable (index : UInt32)
    : (crcTable index).toBitVec = Crc.shifts crcPolynomial 8 index.toBitVec := by
  simp only [crcTable, toBitVec_crcShift, Crc.shifts]

/-- The program's table lookup divides out one byte. -/
theorem toBitVec_crcStep (crc : UInt32) (byte : UInt8)
    : (crcTable ((crc ^^^ byte.toUInt32) &&& 0xFF) ^^^ (crc >>> 8)).toBitVec
      = Crc.step crcPolynomial crc.toBitVec byte.toBitVec := by
  rw [UInt32.toBitVec_xor, toBitVec_crcTable, UInt32.toBitVec_and, UInt32.toBitVec_xor]
  rfl

def bitsOf (byte : UInt8) : List Bool := (List.range 8).map byte.toBitVec.getLsbD

/-- The checksum by its definition: the message is divided out bit by bit. -/
def crc32Bitwise (data : Bytes) : BitVec 32 :=
  ~~~ (data.flatMap bitsOf).foldl (Crc.feed 0xEDB88320#32) 0xFFFFFFFF#32

/-- The table lookup of a byte does what its eight bits do. -/
theorem foldl_feed_bitsOf (crc : BitVec 32) (byte : UInt8)
    : (bitsOf byte).foldl (Crc.feed crcPolynomial) crc
      = Crc.step crcPolynomial crc byte.toBitVec := by
  have spells (position : Nat)
      : (byte.toBitVec.setWidth 32).getLsbD position = (bitsOf byte).getD position false := by
    by_cases inside : position < 8
    · have reached : position < 32 := by omega
      simp [bitsOf, List.getD_eq_getElem?_getD, inside, reached]
    · simp [bitsOf, List.getD_eq_getElem?_getD, Nat.not_lt.mp inside]
  rw [Crc.foldl_feed spells, Crc.step_eq_shifts]
  rfl

/-- The checksum computed through the table is the one computed bit by bit. -/
theorem crc32_eq_bitwise (data : Bytes) : (crc32 data).toBitVec = crc32Bitwise data := by
  have states (crc : UInt32)
      : (data.foldl
          (fun crc byte => crcTable ((crc ^^^ byte.toUInt32) &&& 0xFF) ^^^ (crc >>> 8)) crc).toBitVec
        = (data.flatMap bitsOf).foldl (Crc.feed crcPolynomial) crc.toBitVec := by
    induction data generalizing crc with
    | nil => rfl
    | cons byte rest ih =>
      rw [List.foldl_cons, ih, toBitVec_crcStep, List.flatMap_cons, List.foldl_append,
        foldl_feed_bitsOf]
  rw [crc32, UInt32.toBitVec_not, states]
  rfl

/-- Byte strings that differ in one byte have different checksums. -/
theorem crc32_ne_of_substituted {first second : Bytes} (replaced : Substituted first second)
    : crc32 first ≠ crc32 second := by
  have top : crcPolynomial.getLsbD (32 - 1) = true := by decide
  refine fun same => replaced.foldl_ne ?_ ?_ _ (UInt32.not_inj.mp same)
  · intro byte left right equal
    have bits := congrArg UInt32.toBitVec equal
    simp only [toBitVec_crcStep] at bits
    exact UInt32.toBitVec_inj.mp (Crc.step_injective top _ bits)
  · intro crc left right equal
    have bits := congrArg UInt32.toBitVec equal
    simp only [toBitVec_crcStep] at bits
    exact UInt8.toBitVec_inj.mp (Crc.step_injective_byte top (by decide) _ bits)

-- Damage to one byte

theorem writeU32_inj {first second : Nat} (firstFits : first < 2 ^ 32) (secondFits : second < 2 ^ 32)
    (same : writeU32 first = writeU32 second)
    : first = second := by
  have numbers := congrArg leNat same
  rwa [writeU32, writeU32, leNat_leBytes_of_lt firstFits, leNat_leBytes_of_lt secondFits] at numbers

variable {recordType : RecordType} {payload : Bytes}

/-- Records with payloads of one length do not differ in a single byte: a body that differs in
one has another checksum.
-/
theorem encodeRecord_not_substituted {other : RecordType} {changed : Bytes}
    {contentHash otherHash : Hash} (same : payload.length = changed.length)
    : ¬ Substituted (encodeRecord recordType payload contentHash)
        (encodeRecord other changed otherHash) := by
  intro replaced
  rw [encodeRecord, encodeRecord, List.append_assoc, List.append_assoc] at replaced
  rcases replaced.of_append rfl with ⟨-, replaced⟩ | ⟨replaced, -⟩
  · have lengths : (recordBody recordType payload contentHash).length
        = (recordBody other changed otherHash).length := by
      rw [length_recordBody, length_recordBody, same]
    rcases replaced.of_append lengths with ⟨bodies, checksums⟩ | ⟨bodies, checksums⟩
    · exact checksums.ne (by rw [bodies])
    · refine crc32_ne_of_substituted bodies (UInt32.toNat.inj ?_)
      exact writeU32_inj (UInt32.toNat_lt _) (UInt32.toNat_lt _) checksums
  · exact replaced.ne rfl

/-- A record that a damaged length field makes shorter has the hash of the whole payload over
a part of it.
-/
theorem isPrefix_of_shortened {other : RecordType} {changed rest : Bytes}
    {contentHash otherHash : Hash} (fits : payload.length < 2 ^ 32)
    (changedFits : changed.length < 2 ^ 32) (shorter : changed.length < payload.length)
    (replaced
      : Substituted (encodeRecord recordType payload contentHash)
          (encodeRecord other changed otherHash ++ rest))
    : changed <+: payload ∧ otherHash = contentHash := by
  have lengthsDiffer : writeU32 payload.length ≠ writeU32 changed.length := fun same =>
    absurd (writeU32_inj fits changedFits same) (by omega)
  simp only [encodeRecord, recordBody, List.append_assoc] at replaced
  rcases replaced.of_append rfl with ⟨-, replaced⟩ | ⟨replaced, -⟩
  · rcases replaced.of_append (by simp) with ⟨-, replaced⟩ | ⟨-, same⟩
    · rcases replaced.of_append (by simp) with ⟨same, -⟩ | ⟨-, same⟩
      · exact absurd same lengthsDiffer
      · obtain ⟨hashes, payloads⟩ := List.append_inj same (by simp)
        refine ⟨?_, (Hash.mk.injEq ..).mpr hashes.symm⟩
        exact List.prefix_of_prefix_length_le ⟨_, payloads.symm⟩ (List.prefix_append ..)
          (Nat.le_of_lt shorter)
    · exact absurd (List.append_inj same (by simp)).1 lengthsDiffer
  · exact absurd rfl replaced.ne

/-- A record damaged in one byte is rejected. -/
theorem decodeRecord_substituted [Blake3] {damaged : Bytes}
    (fits : payload.length < 2 ^ 32)
    (apart : ∀ part, part <+: payload → Hash.ofBytes part = Hash.ofBytes payload → part = payload)
    (replaced : Substituted (encodeRecord recordType payload (Hash.ofBytes payload)) damaged)
    : ∃ error, decodeRecord damaged = .error error := by
  cases outcome : decodeRecord damaged with
  | error error => exact ⟨error, rfl⟩
  | ok record =>
    obtain ⟨⟨rest, rfl⟩, recordFits, hashed⟩ := decodeRecord_eq_ok outcome
    have lengths := replaced.length_eq
    rw [List.length_append, length_encodeRecord, length_encodeRecord] at lengths
    rcases Nat.lt_or_ge record.payload.length payload.length with shorter | longer
    · obtain ⟨part, sameHash⟩ := isPrefix_of_shortened fits recordFits shorter replaced
      have whole := apart record.payload part (hashed.trans sameHash)
      exact absurd (congrArg List.length whole) (by omega)
    · obtain rfl : rest = [] := List.eq_nil_of_length_eq_zero (by omega)
      rw [List.append_nil] at replaced
      exact absurd replaced (encodeRecord_not_substituted (by omega))

-- Damage to one bit

/-- A byte string with one bit flipped, the bits of a byte counted from the lowest. -/
def flipBit (bytes : Bytes) (position : Nat) : Bytes :=
  bytes.modify (position / 8) (· ^^^ (1 <<< UInt8.ofNat (position % 8)))

theorem substituted_flipBit {bytes : Bytes} {position : Nat} (inside : position < 8 * bytes.length)
    : Substituted bytes (flipBit bytes position) := by
  have set : ∀ bit < 8, (1 : UInt8) <<< UInt8.ofNat bit ≠ 0 := by decide
  refine .modify (fun byte same => set (position % 8) (Nat.mod_lt _ (by decide)) ?_) (by omega)
  exact (UInt8.xor_right_inj byte).mp (same.symm.trans UInt8.xor_zero.symm)

/-- Flipping any one bit of a stored record makes the decoder reject it, provided that no
shorter part of the payload has the payload's hash.
-/
theorem decodeRecord_flipBit [Blake3] (recordType : RecordType) (payload : Bytes)
    (fits : payload.length < 2 ^ 32)
    (apart : ∀ part, part <+: payload → Hash.ofBytes part = Hash.ofBytes payload → part = payload)
    (position : Nat)
    (inside : position < 8 * (encodeRecord recordType payload (Hash.ofBytes payload)).length)
    : ∃ error,
        decodeRecord (flipBit (encodeRecord recordType payload (Hash.ofBytes payload)) position)
          = .error error :=
  decodeRecord_substituted fits apart (substituted_flipBit inside)

attribute [local instance] Blake3.linked in
/-- The lowest bit of the payload length of a leaf record, which makes the record one byte
longer than its bytes.
-/
theorem decodeRecord_flipBit_length
    : ∃ error,
        decodeRecord (flipBit (encodeRecord .hamtLeaf [7, 9] (Hash.ofBytes [7, 9])) 40)
          = .error error := by
  refine decodeRecord_flipBit .hamtLeaf [7, 9] (by decide) ?_ 40 ?_
  · intro part isPart
    have parts : part ∈ ([7, 9] : Bytes).inits := (List.mem_inits _ _).mpr isPart
    have apart : ∀ part ∈ ([7, 9] : Bytes).inits,
        Hash.ofBytes part = Hash.ofBytes [7, 9] → part = [7, 9] := by decide +kernel
    exact apart part parts
  · rw [length_encodeRecord]
    decide

end Epochs
