import Epochs.Core.Backend
import Epochs.Lib.SparseArray

/-! HAMT node payloads. A payload carries no type tag: the record type says how to read it. -/

namespace Epochs

open Lib Decoder ByteDecoder

inductive HamtNode where
  | bitmap (bitmap : BitVec 32) (children : List Hash)
  | leaf (key value : Bytes)
  deriving DecidableEq

namespace HamtNode

def encode : HamtNode → Bytes
  | bitmap bits children =>
    writeU32 bits.toNat ++ writeU8 children.length ++ children.flatMap writeHash
  | leaf key value =>
    writeU16 key.length ++ key ++ writeU32 value.length ++ value

def recordType : HamtNode → RecordType
  | bitmap .. => .hamtBitmap
  | leaf .. => .hamtLeaf

def readBitmap : ByteDecoder HamtNode := do
  let bits ← readU32
  let childCount ← readU8
  let children ← readHash.many childCount
  pure (bitmap (BitVec.ofNat 32 bits) children)

def readLeaf : ByteDecoder HamtNode := do
  let klen ← readU16
  let key ← readSlice klen
  let vlen ← readU32
  let value ← readSlice vlen
  pure (leaf key value)

def decode (recordType : RecordType) (buf : Bytes) : Except EpochsError HamtNode :=
  match recordType with
  | .hamtBitmap => (readBitmap buf).map Prod.fst
  | .hamtLeaf => (readLeaf buf).map Prod.fst
  | .commit => .error (.codec "not a HAMT node record")

def Fits : HamtNode → Prop
  | bitmap _ children => children.length < 256
  | leaf key value => key.length < 65536 ∧ value.length < 2 ^ 32

theorem readBitmap_reads (bits : BitVec 32) {children : List Hash}
    (fits : children.length < 256)
    : Reads readBitmap (bitmap bits children).encode (bitmap bits children) := by
  have count := readU8_reads children.length
  rw [Nat.mod_eq_of_lt fits] at count
  have number := readU32_reads bits.toNat
  rw [Nat.mod_eq_of_lt bits.isLt] at number
  have hashes := Reads.many (fun hash (_ : hash ∈ children) => readHash_reads hash)
  have result : Reads (do let children ← readHash.many children.length
                          pure (bitmap (BitVec.ofNat 32 bits.toNat) children))
      (children.flatMap writeHash) (bitmap bits children) := by
    simpa only [BitVec.ofNat_toNat, BitVec.setWidth_eq] using hashes.result
  simp only [encode, List.append_assoc]
  exact number.bind (count.bind result)

theorem readLeaf_reads {key value : Bytes} (keyFits : key.length < 65536)
    (valueFits : value.length < 2 ^ 32)
    : Reads readLeaf (leaf key value).encode (leaf key value) := by
  have klen := readU16_reads key.length
  rw [Nat.mod_eq_of_lt keyFits] at klen
  have vlen := readU32_reads value.length
  rw [Nat.mod_eq_of_lt valueFits] at vlen
  simp only [encode, List.append_assoc]
  refine klen.bind ((readSlice_reads key).bind (vlen.bind ?_))
  exact (readSlice_reads value).result

/-- A node whose lengths fit their fields survives storage under its own record type. -/
theorem decode_encode {node : HamtNode} (fits : node.Fits)
    : decode node.recordType node.encode = .ok node := by
  cases node with
  | bitmap bits children =>
    have reads := readBitmap_reads bits fits []
    rw [List.append_nil] at reads
    simp [decode, recordType, reads, Except.map]
  | leaf key value =>
    have reads := readLeaf_reads fits.1 fits.2 []
    rw [List.append_nil] at reads
    simp [decode, recordType, reads, Except.map]

end HamtNode
end Epochs
