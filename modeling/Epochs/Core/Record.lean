import Epochs.Core.Codec

/-! The `.epl` record format: header, payload and checksum of one stored object. -/

namespace Epochs

open Lib Decoder ByteDecoder

-- IEEE 802.3 CRC32

def crcShift (c : UInt32) : UInt32 :=
  if c &&& 1 ≠ 0 then (0xEDB88320 : UInt32) ^^^ (c >>> 1) else c >>> 1

def crcTable (index : UInt32) : UInt32 :=
  crcShift (crcShift (crcShift (crcShift
    (crcShift (crcShift (crcShift (crcShift index)))))))

def crc32 (data : Bytes) : UInt32 :=
  ~~~ data.foldl
    (fun crc byte => crcTable ((crc ^^^ byte.toUInt32) &&& 0xFF) ^^^ (crc >>> 8)) 0xFFFFFFFF

-- The known vector of the program's own test, on the digits 1 to 9.
example : crc32 [0x31, 0x32, 0x33, 0x34, 0x35, 0x36, 0x37, 0x38, 0x39] = 0xCBF43926 := by
  decide +kernel

-- Record types and formats

def recordMagic : Bytes := [0x45, 0x50, 0x43, 0x4C]

def segmentMagic : Bytes := [0x45, 0x50, 0x53, 0x47]

def segmentHeaderLen : Nat := 16

inductive RecordType where
  | commit
  | hamtBitmap
  | hamtLeaf
  deriving DecidableEq

namespace RecordType

def toU8 : RecordType → Nat
  | commit => 1
  | hamtBitmap => 2
  | hamtLeaf => 3

def fromU8 (value : Nat) : Except EpochsError RecordType :=
  match value with
  | 1 => .ok commit
  | 2 => .ok hamtBitmap
  | 3 => .ok hamtLeaf
  | other => .error (.storage (.corrupt s!"unknown record type: {other}"))

@[simp]
theorem fromU8_toU8 (type : RecordType) : fromU8 type.toU8 = .ok type := by
  cases type <;> rfl

theorem eq_toU8_of_fromU8 {value : Nat} {type : RecordType} (known : fromU8 value = .ok type)
    : value = type.toU8 := by
  unfold fromU8 at known
  split at known <;> cases known <;> rfl

theorem toU8_lt (type : RecordType) : type.toU8 < 256 := by
  cases type <;> decide

end RecordType

structure Record where
  recordType : RecordType
  contentHash : Hash
  payload : Bytes
  deriving DecidableEq

def recordBody (recordType : RecordType) (payload : Bytes) (contentHash : Hash) : Bytes :=
  writeU8 recordType.toU8 ++ writeU32 payload.length ++ writeHash contentHash ++ payload

def encodeRecord (recordType : RecordType) (payload : Bytes) (contentHash : Hash) : Bytes :=
  recordMagic ++ recordBody recordType payload contentHash
    ++ writeU32 (crc32 (recordBody recordType payload contentHash)).toNat

def encodeSegmentHeader (segmentId createdAt : Nat) : Bytes :=
  segmentMagic ++ writeU32 segmentId ++ writeU64 createdAt

/-- The fields of a record in the order the decoder reads them: type, payload length,
content hash, payload and stored checksum.
-/
def recordFields : ByteDecoder (RecordType × Nat × Hash × Bytes × Nat) := do
  let magic ← readSlice 4
  ensure (magic = recordMagic) (.storage (.corrupt "invalid record magic"))
  let discriminant ← readU8
  let recordType ← convert (RecordType.fromU8 discriminant)
  let payloadLen ← readU32
  let contentHash ← readHash
  let payload ← readSlice payloadLen
  let storedCrc ← readU32
  pure (recordType, payloadLen, contentHash, payload, storedCrc)

def decodeRecord [Blake3] (buf : Bytes) : Except EpochsError Record :=
  if buf.length < 45 then
    .error (.storage (.corrupt "record too short"))
  else
    match recordFields buf with
    | .error error => .error error
    | .ok ((recordType, payloadLen, contentHash, payload, storedCrc), _) =>
      let computedCrc := (crc32 ((buf.drop 4).take (37 + payloadLen))).toNat
      let computedHash := Hash.ofBytes payload
      if storedCrc ≠ computedCrc then
        .error (.storage .crcMismatch)
      else if computedHash ≠ contentHash then
        .error (.storage (.hashMismatch contentHash computedHash))
      else
        .ok { recordType, contentHash, payload }

-- What the decoder accepts

@[simp]
theorem length_recordBody (recordType : RecordType) (payload : Bytes) (contentHash : Hash)
    : (recordBody recordType payload contentHash).length = 37 + payload.length := by
  simp only [recordBody, List.length_append, length_writeU8, length_writeU32, length_writeHash]

@[simp]
theorem length_encodeRecord (recordType : RecordType) (payload : Bytes) (contentHash : Hash)
    : (encodeRecord recordType payload contentHash).length = 45 + payload.length := by
  simp only [encodeRecord, List.length_append, length_recordBody, length_writeU32, recordMagic,
    List.length_cons, List.length_nil]
  omega

variable {payload : Bytes}

/-- The record decoder reads back every field of an encoded record whose payload length
fits its four-byte field.
-/
theorem recordFields_reads (fits : payload.length < 2 ^ 32)
    (recordType : RecordType) (contentHash : Hash)
    : Reads recordFields (encodeRecord recordType payload contentHash)
        (recordType, payload.length, contentHash, payload,
          (crc32 (recordBody recordType payload contentHash)).toNat) := by
  have magic := readSlice_reads recordMagic
  have type := readU8_reads recordType.toU8
  rw [Nat.mod_eq_of_lt recordType.toU8_lt] at type
  have length := readU32_reads payload.length
  rw [Nat.mod_eq_of_lt fits] at length
  have crc := readU32_reads (crc32 (recordBody recordType payload contentHash)).toNat
  rw [Nat.mod_eq_of_lt (UInt32.toNat_lt _)] at crc
  simp only [encodeRecord, List.append_assoc]
  refine magic.bind (Reads.ensure rfl ?_)
  rw [recordBody, List.append_assoc, List.append_assoc, List.append_assoc]
  refine type.bind (Reads.convert (RecordType.fromU8_toU8 recordType) ?_)
  refine length.bind ?_
  refine (readHash_reads contentHash).bind ?_
  exact (readSlice_reads payload).bind crc.result

/-- An encoded record decodes to its type, hash and payload, also when other bytes follow. -/
theorem decodeRecord_encodeRecord [Blake3]
    (fits : payload.length < 2 ^ 32) (recordType : RecordType) (rest : Bytes)
    : decodeRecord (encodeRecord recordType payload (Hash.ofBytes payload) ++ rest)
      = .ok { recordType, contentHash := Hash.ofBytes payload, payload } := by
  have long : ¬ (encodeRecord recordType payload (Hash.ofBytes payload) ++ rest).length < 45 := by
    simp only [List.length_append, length_encodeRecord]
    omega
  have body : ((encodeRecord recordType payload (Hash.ofBytes payload) ++ rest).drop 4).take
      (37 + payload.length) = recordBody recordType payload (Hash.ofBytes payload) := by
    have length := length_recordBody recordType payload (Hash.ofBytes payload)
    simp only [encodeRecord, recordMagic, List.cons_append, List.nil_append, List.drop_succ_cons,
      List.drop_zero, List.append_assoc, ← length, List.take_left']
  have fields := recordFields_reads fits recordType (Hash.ofBytes payload) rest
  simp only [decodeRecord, if_neg long, fields, body, ne_eq, not_true, if_false]

/-- The fields that are read lay out an encoded record, but for the checksum. -/
theorem recordFields_eq_ok {source rest : Bytes} {recordType : RecordType}
    {payloadLen storedCrc : Nat} {contentHash : Hash}
    (decoded
      : recordFields source
        = .ok ((recordType, payloadLen, contentHash, payload, storedCrc), rest))
    : source = recordMagic ++ (recordBody recordType payload contentHash
        ++ (writeU32 storedCrc ++ rest))
      ∧ payloadLen = payload.length
      ∧ payload.length < 2 ^ 32 := by
  simp only [recordFields, bind_eq_ok, readSlice_eq_ok, readHash_eq_ok, ensure_eq_ok,
    convert_eq_ok] at decoded
  obtain ⟨_, _, ⟨rfl, -⟩, _, _, ⟨rfl, rfl⟩, discriminant, _, typeRead, _, _, ⟨known, rfl⟩,
    length, _, lengthRead, hash, _, rfl, _, _, ⟨rfl, payloadLength⟩, crc, _, crcRead, same⟩ := decoded
  obtain ⟨rfl, -⟩ := readUint_inverts 1 _ _ _ typeRead
  obtain ⟨rfl, lengthFits⟩ := readUint_inverts 4 _ _ _ lengthRead
  obtain ⟨rfl, -⟩ := readUint_inverts 4 _ _ _ crcRead
  simp only [pure_apply, Except.ok.injEq, Prod.mk.injEq] at same
  obtain ⟨⟨rfl, rfl, rfl, rfl, rfl⟩, rfl⟩ := same
  obtain rfl := RecordType.eq_toU8_of_fromU8 known
  obtain rfl := payloadLength
  refine ⟨?_, rfl, lengthFits⟩
  simp only [recordBody, writeU8, writeU32, writeHash, List.append_assoc]

/-- What the decoder accepts is an encoded record whose hash is that of its payload, and what
follows it.
-/
theorem decodeRecord_eq_ok [Blake3] {buf : Bytes} {record : Record}
    (accepted : decodeRecord buf = .ok record)
    : (∃ rest, buf = encodeRecord record.recordType record.payload record.contentHash ++ rest)
      ∧ record.payload.length < 2 ^ 32
      ∧ Hash.ofBytes record.payload = record.contentHash := by
  unfold decodeRecord at accepted
  split at accepted
  · simp at accepted
  · split at accepted
    · simp at accepted
    · rename_i recordType payloadLen contentHash payload storedCrc rest fields
      obtain ⟨rfl, rfl, fits⟩ := recordFields_eq_ok fields
      have body : ((recordMagic ++ (recordBody recordType payload contentHash
          ++ (writeU32 storedCrc ++ rest))).drop 4).take (37 + payload.length)
          = recordBody recordType payload contentHash := by
        rw [List.drop_left' (show recordMagic.length = 4 from rfl),
          List.take_left' (length_recordBody ..)]
      dsimp only at accepted
      split at accepted
      · simp at accepted
      · rename_i sameCrc
        split at accepted
        · simp at accepted
        · rename_i sameHash
          simp only [Except.ok.injEq] at accepted
          subst accepted
          refine ⟨⟨rest, ?_⟩, fits, not_not.mp sameHash⟩
          rw [not_not.mp sameCrc, body]
          simp only [encodeRecord, List.append_assoc]

/-- An accepted record hashes to the hash in its own header, which is the one thing the
decoder ties the payload to.
-/
theorem decodeRecord_verified [Blake3] {buf : Bytes} {record : Record}
    (accepted : decodeRecord buf = .ok record)
    : Hash.ofBytes record.payload = record.contentHash
      ∧ (buf.drop 9).take 32 = record.contentHash.bytes := by
  obtain ⟨⟨rest, rfl⟩, -, hashed⟩ := decodeRecord_eq_ok accepted
  refine ⟨hashed, ?_⟩
  have header : (recordMagic ++ (writeU8 record.recordType.toU8
      ++ writeU32 record.payload.length)).length = 9 := by
    simp only [List.length_append, length_writeU8, length_writeU32, recordMagic, List.length_cons,
      List.length_nil]
  rw [encodeRecord, recordBody, List.append_assoc (writeU8 _ ++ writeU32 _),
    ← List.append_assoc recordMagic, List.append_assoc, List.append_assoc,
    List.drop_left' header, List.append_assoc]
  exact List.take_left' record.contentHash.size

end Epochs
