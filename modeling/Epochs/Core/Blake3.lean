import Epochs.Core.Hash

/-! BLAKE3 in its plain hashing mode. The program links the function from outside, and no
result depends on which function it is; this one evaluates concrete runs as the program does.
Words are naturals below `2 ^ 32`.
-/

namespace Epochs.Blake3

open Lib

def addWord (left right : Nat) : Nat := (left + right) % 2 ^ 32

def rotateRight (word bits : Nat) : Nat := (word >>> bits) ||| ((word <<< (32 - bits)) % 2 ^ 32)

def mix (a b c d first second : Nat) (next : Nat → Nat → Nat → Nat → List Nat) : List Nat :=
  let wordA := addWord (addWord a b) first
  let wordD := rotateRight (d ^^^ wordA) 16
  let wordC := addWord c wordD
  let wordB := rotateRight (b ^^^ wordC) 12
  let wordA := addWord (addWord wordA wordB) second
  let wordD := rotateRight (wordD ^^^ wordA) 8
  let wordC := addWord wordC wordD
  let wordB := rotateRight (wordB ^^^ wordC) 7
  next wordA wordB wordC wordD

def round : List Nat → List Nat → List Nat
  | [s0, s1, s2, s3, s4, s5, s6, s7, s8, s9, s10, s11, s12, s13, s14, s15],
    [m0, m1, m2, m3, m4, m5, m6, m7, m8, m9, m10, m11, m12, m13, m14, m15] =>
      mix s0 s4 s8 s12 m0 m1 fun s0 s4 s8 s12 =>
      mix s1 s5 s9 s13 m2 m3 fun s1 s5 s9 s13 =>
      mix s2 s6 s10 s14 m4 m5 fun s2 s6 s10 s14 =>
      mix s3 s7 s11 s15 m6 m7 fun s3 s7 s11 s15 =>
      mix s0 s5 s10 s15 m8 m9 fun s0 s5 s10 s15 =>
      mix s1 s6 s11 s12 m10 m11 fun s1 s6 s11 s12 =>
      mix s2 s7 s8 s13 m12 m13 fun s2 s7 s8 s13 =>
      mix s3 s4 s9 s14 m14 m15 fun s3 s4 s9 s14 =>
      [s0, s1, s2, s3, s4, s5, s6, s7, s8, s9, s10, s11, s12, s13, s14, s15]
  | state, _ => state

def permutation : List Nat := [2, 6, 3, 10, 7, 0, 4, 13, 1, 11, 12, 5, 9, 14, 15, 8]

def initial : List Nat :=
  [0x6A09E667, 0xBB67AE85, 0x3C6EF372, 0xA54FF53A, 0x510E527F, 0x9B05688C, 0x1F83D9AB, 0x5BE0CD19]

def rounds : Nat → List Nat → List Nat → List Nat
  | 0, state, _ => state
  | count + 1, state, message =>
    rounds count (round state message) (permutation.map fun index => message.getD index 0)

def chunkStart : Nat := 1
def chunkEnd : Nat := 2
def parentFlag : Nat := 4
def rootFlag : Nat := 8

def compress (chaining message : List Nat) (counter length flags : Nat) : List Nat :=
  let state := rounds 7
    (chaining ++ initial.take 4 ++ [counter % 2 ^ 32, counter / 2 ^ 32 % 2 ^ 32, length, flags])
    message
  (List.range 8).map fun index => state.getD index 0 ^^^ state.getD (index + 8) 0

def blockWords (block : Bytes) : List Nat :=
  (List.range 16).map fun index => leNat ((block.drop (4 * index)).take 4)

/-- The chaining value of a chunk: its blocks in order, the first and the last marked. -/
def chunkBlocks (counter root : Nat) : Nat → List Nat → Nat → Bytes → List Nat
  | 0, chaining, _, _ => chaining
  | fuel + 1, chaining, start, bytes =>
    let block := bytes.take 64
    let rest := bytes.drop 64
    if rest.isEmpty then
      compress chaining (blockWords block) counter block.length (start + chunkEnd + root)
    else
      chunkBlocks counter root fuel
        (compress chaining (blockWords block) counter block.length start) 0 rest

def chunk (counter root : Nat) (bytes : Bytes) : List Nat :=
  chunkBlocks counter root 16 initial chunkStart bytes

/-- The number of bytes in the left subtree: the largest power of two of whole chunks that
leaves at least one byte.
-/
def leftLength : Nat → Nat → Nat → Nat
  | 0, size, _ => size
  | fuel + 1, size, length => if 2 * size < length then leftLength fuel (2 * size) length else size

def subtree : Nat → Nat → Nat → Bytes → List Nat
  | 0, counter, root, bytes => chunk counter root bytes
  | fuel + 1, counter, root, bytes =>
    if bytes.length ≤ 1024 then
      chunk counter root bytes
    else
      let left := leftLength fuel 1024 bytes.length
      let leftValue := subtree fuel counter 0 (bytes.take left)
      let rightValue := subtree fuel (counter + left / 1024) 0 (bytes.drop left)
      compress initial (leftValue ++ rightValue) 0 64 (parentFlag + root)

def digest (bytes : Bytes) : Bytes :=
  let value := subtree bytes.length 0 rootFlag bytes
  (List.range 8).flatMap fun index => leBytes 4 (value.getD index 0)

theorem digest_length (bytes : Bytes) : (digest bytes).length = 32 := by
  simp only [digest, List.length_flatMap, length_leBytes]
  rfl

@[reducible]
def linked : Blake3 where
  hash bytes := ⟨digest bytes, digest_length bytes⟩

example : (digest []).take 4 = [0xaf, 0x13, 0x49, 0xb9] := by decide +kernel

end Epochs.Blake3
