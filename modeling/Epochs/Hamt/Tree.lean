import Epochs.Core.Traced
import Epochs.Hamt.Node

/-! Persistent HAMT operations with path copying, over any content-addressable store.
Recursion follows stored hashes, so each recursive operation carries a budget; it ends in
`Fault.fuel` when the budget is spent before the program would have returned.
-/

namespace Epochs.PersistentHamt

open Lib

variable {σ : Type} [Blake3] [CasBackend σ]

-- Hash chunks and child positions

def hashByte (hash : Hash) (index : Nat) : Nat := (hash.bytes.getD index 0).toNat

/-- The 5-bit chunk of a key hash that selects the branch at a depth. From the last byte on,
the chunk is taken from that byte alone.
-/
def extract5Bits (keyHash : Hash) (depth : Nat) : Fin 32 :=
  let bitIdx := depth * 5
  let byteIdx := bitIdx / 8
  let bitOffset := bitIdx % 8
  if byteIdx ≥ 31 then
    ⟨(hashByte keyHash 31 >>> (bitOffset % 8)) &&& 0x1F, Nat.and_lt_two_pow _ (by decide : 0x1F < 2 ^ 5)⟩
  else
    let combined := (hashByte keyHash byteIdx ||| (hashByte keyHash (byteIdx + 1) <<< 8)) >>> bitOffset
    ⟨combined &&& 0x1F, Nat.and_lt_two_pow _ (by decide : 0x1F < 2 ^ 5)⟩

def bitMask (branch : Fin 32) : BitVec 32 := 1#32 <<< branch.val

def countOnes (bits : BitVec 32) : Nat := (List.range 32).countP bits.getLsbD

def childIndex (bitmap : BitVec 32) (branch : Fin 32) : Nat :=
  countOnes (bitmap &&& (bitMask branch - 1))

-- Node access

def persistLeaf (key value : Bytes) : Run EpochsError (Traced σ) Hash :=
  Traced.put .hamtLeaf (HamtNode.leaf key value).encode

def persistBitmap (bitmap : BitVec 32) (children : List Hash)
    : Run EpochsError (Traced σ) Hash :=
  Traced.put .hamtBitmap (HamtNode.bitmap bitmap children).encode

def loadNode (hash : Hash) : Run EpochsError (Traced σ) HamtNode := do
  let (recordType, payload) ← Traced.getRecord hash
  Run.ofExcept (HamtNode.decode recordType payload)

-- Insertion

mutual

def insertInternal
    : (fuel : Nat) → (nodeHash : Option Hash) → (key value : Bytes) → (keyHash : Hash)
      → (depth : Nat) → Run EpochsError (Traced σ) Hash
  | 0, _, _, _, _, _ => throw .fuel
  | _ + 1, none, key, value, _, _ => persistLeaf key value
  | fuel + 1, some hash, key, value, keyHash, depth => do
    let node ← loadNode hash
    match node with
    | .leaf existingKey existingVal =>
      if existingKey = key then
        persistLeaf key value
      else
        expandLeafCollision fuel existingKey existingVal (Hash.ofBytes existingKey)
          key value keyHash depth
    | .bitmap bitmap children =>
      let branch := extract5Bits keyHash depth
      let idx := childIndex bitmap branch
      if bitmap &&& bitMask branch ≠ 0 then
        let childHash ← Run.index children idx
        let newChild ← insertInternal fuel (some childHash) key value keyHash (depth + 1)
        let newChildren ← Run.setAt children idx newChild
        persistBitmap bitmap newChildren
      else
        let newLeaf ← persistLeaf key value
        let newChildren ← Run.insertAt children idx newLeaf
        persistBitmap (bitmap ||| bitMask branch) newChildren

def expandLeafCollision
    : (fuel : Nat) → (existingKey existingVal : Bytes) → (existingKeyHash : Hash)
      → (newKey newVal : Bytes) → (newKeyHash : Hash) → (depth : Nat)
      → Run EpochsError (Traced σ) Hash
  | 0, _, _, _, _, _, _, _ => throw .fuel
  | fuel + 1, existingKey, existingVal, existingKeyHash, newKey, newVal, newKeyHash, depth => do
    let chunkOld := extract5Bits existingKeyHash depth
    let chunkNew := extract5Bits newKeyHash depth
    if chunkOld = chunkNew then
      -- The split below is returned as it is, without a node for this depth.
      let oldLeafHash ← persistLeaf existingKey existingVal
      insertInternal fuel (some oldLeafHash) newKey newVal newKeyHash (depth + 1)
    else
      let oldLeafHash ← persistLeaf existingKey existingVal
      let newLeafHash ← persistLeaf newKey newVal
      let bitmap := bitMask chunkOld ||| bitMask chunkNew
      let children :=
        if chunkOld < chunkNew then [oldLeafHash, newLeafHash]
        else [newLeafHash, oldLeafHash]
      persistBitmap bitmap children

end

def insert (fuel : Nat) (root : Option Hash) (key value : Bytes)
    : Run EpochsError (Traced σ) Hash :=
  insertInternal fuel root key value (Hash.ofBytes key) 0

-- Lookup

def getInternal
    : (fuel : Nat) → (nodeHash : Hash) → (key : Bytes) → (keyHash : Hash) → (depth : Nat)
      → Run EpochsError (Traced σ) (Option Bytes)
  | 0, _, _, _, _ => throw .fuel
  | fuel + 1, nodeHash, key, keyHash, depth => do
    let node ← loadNode nodeHash
    match node with
    | .leaf k v => if k = key then pure (some v) else pure none
    | .bitmap bitmap children =>
      let branch := extract5Bits keyHash depth
      if bitmap &&& bitMask branch = 0 then
        pure none
      else
        let child ← Run.index children (childIndex bitmap branch)
        getInternal fuel child key keyHash (depth + 1)

def get (fuel : Nat) (root : Option Hash) (key : Bytes)
    : Run EpochsError (Traced σ) (Option Bytes) :=
  match root with
  | none => pure none
  | some rootHash => getInternal fuel rootHash key (Hash.ofBytes key) 0

def leafHashInternal
    : (fuel : Nat) → (nodeHash : Hash) → (key : Bytes) → (keyHash : Hash) → (depth : Nat)
      → Run EpochsError (Traced σ) (Option Hash)
  | 0, _, _, _, _ => throw .fuel
  | fuel + 1, nodeHash, key, keyHash, depth => do
    let node ← loadNode nodeHash
    match node with
    | .leaf k _ => if k = key then pure (some nodeHash) else pure none
    | .bitmap bitmap children =>
      let branch := extract5Bits keyHash depth
      if bitmap &&& bitMask branch = 0 then
        pure none
      else
        let child ← Run.index children (childIndex bitmap branch)
        leafHashInternal fuel child key keyHash (depth + 1)

def leafHash (fuel : Nat) (root : Option Hash) (key : Bytes)
    : Run EpochsError (Traced σ) (Option Hash) :=
  match root with
  | none => pure none
  | some rootHash => leafHashInternal fuel rootHash key (Hash.ofBytes key) 0

-- Listing

def collectEntries
    : (fuel : Nat) → (nodeHash : Hash) → (out : List (Bytes × Bytes))
      → Run EpochsError (Traced σ) (List (Bytes × Bytes))
  | 0, _, _ => throw .fuel
  | fuel + 1, nodeHash, out => do
    let node ← loadNode nodeHash
    match node with
    | .leaf key value => pure (out ++ [(key, value)])
    | .bitmap _ children => children.foldlM (fun out child => collectEntries fuel child out) out

def entries (fuel : Nat) (root : Option Hash)
    : Run EpochsError (Traced σ) (List (Bytes × Bytes)) :=
  match root with
  | none => pure []
  | some rootHash => collectEntries fuel rootHash []

-- Removal

def removeInternal
    : (fuel : Nat) → (nodeHash : Hash) → (key : Bytes) → (keyHash : Hash) → (depth : Nat)
      → Run EpochsError (Traced σ) (Option Hash)
  | 0, _, _, _, _ => throw .fuel
  | fuel + 1, nodeHash, key, keyHash, depth => do
    let node ← loadNode nodeHash
    match node with
    | .leaf k _ => if k = key then pure none else pure (some nodeHash)
    | .bitmap bitmap children =>
      let branch := extract5Bits keyHash depth
      if bitmap &&& bitMask branch = 0 then
        pure (some nodeHash)
      else
        let idx := childIndex bitmap branch
        let child ← Run.index children idx
        match ← removeInternal fuel child key keyHash (depth + 1) with
        | none =>
          let newChildren ← Run.removeAt children idx
          let newBitmap := bitmap &&& ~~~ bitMask branch
          -- A node left with one child keeps its bitmap, as one with more does.
          if newChildren.isEmpty then pure none
          else do
            let newHash ← persistBitmap newBitmap newChildren
            pure (some newHash)
        | some newChild =>
          let newChildren ← Run.setAt children idx newChild
          let newHash ← persistBitmap bitmap newChildren
          pure (some newHash)

def remove (fuel : Nat) (root : Option Hash) (key : Bytes)
    : Run EpochsError (Traced σ) (Option Hash) :=
  match root with
  | none => pure none
  | some rootHash => removeInternal fuel rootHash key (Hash.ofBytes key) 0

end Epochs.PersistentHamt
