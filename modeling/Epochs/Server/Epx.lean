import Epochs.Core.Codec
import Mathlib.Data.List.Basic

/-! The wire format of the EPX server: frames with a big-endian length before the body, and the
base64 text in which a stored payload is answered. The socket is the byte string still to be
read.
-/

namespace Epochs.Server

open Lib

-- Frames

def maxFrame : Nat := 16 * 1024 * 1024

/-- What `write_frame` sends for a serialised response. The length is narrowed to a u32 before
it is compared with the limit.
-/
def writeFrame (body : Bytes) : Except String Bytes :=
  let len := body.length % 2 ^ 32
  if len > maxFrame then .error "response too large"
  else .ok ((writeU32 len).reverse ++ body)

/-- One call of `read_frame`: the frame, or nothing when the stream ends before or inside the
length, and what is left to read.
-/
def readFrame (stream : Bytes) : Except String (Option Bytes × Bytes) :=
  if stream.length < 4 then .ok (none, [])
  else
    let len := leNat (stream.take 4).reverse
    let stream := stream.drop 4
    if len = 0 then .ok (some [], stream)
    else if len > maxFrame then .error s!"frame too large: {len}"
    else if stream.length < len then .error "early eof"
    else .ok (some (stream.take len), stream.drop len)

def readFrames : Nat → Bytes → Except String (List (Option Bytes))
  | 0, _ => .ok []
  | calls + 1, stream => do
    let (frame, rest) ← readFrame stream
    let frames ← readFrames calls rest
    .ok (frame :: frames)

/-- A frame is read back up to its length modulo the range of the prefix; the bytes beyond it
stay in the stream.
-/
theorem readFrame_writeFrame {body output : Bytes} (rest : Bytes)
    (written : writeFrame body = .ok output)
    : readFrame (output ++ rest)
      = .ok (some (body.take (body.length % 2 ^ 32)),
          body.drop (body.length % 2 ^ 32) ++ rest) := by
  have short : body.length % 2 ^ 32 ≤ body.length := Nat.mod_le _ _
  have width : (writeU32 (body.length % 2 ^ 32)).reverse.length = 4 := by simp
  have len : leNat (writeU32 (body.length % 2 ^ 32)) = body.length % 2 ^ 32 :=
    leNat_leBytes_of_lt (Nat.mod_lt _ (by decide))
  simp only [writeFrame] at written
  split at written
  · cases written
  · next fits =>
    cases written
    have head : List.take 4 ((writeU32 (body.length % 2 ^ 32)).reverse ++ (body ++ rest))
        = (writeU32 (body.length % 2 ^ 32)).reverse := List.take_left' width
    have tail : List.drop 4 ((writeU32 (body.length % 2 ^ 32)).reverse ++ (body ++ rest))
        = body ++ rest := List.drop_left' width
    rw [List.append_assoc, readFrame, if_neg (by simp), head, tail, List.reverse_reverse, len]
    by_cases empty : body.length % 2 ^ 32 = 0
    · rw [if_pos empty, empty, List.take_zero, List.drop_zero]
    · rw [if_neg empty, if_neg fits, if_neg (by simp; omega),
        List.take_append_of_le_length short, List.drop_append_of_le_length short]

/-- A body whose length does not fit its prefix is cut off, whatever follows it. -/
theorem cut_ne_self {body : Bytes} (long : 2 ^ 32 ≤ body.length)
    : body.take (body.length % 2 ^ 32) ≠ body := by
  intro same
  have lengths := congrArg List.length same
  have bounded := Nat.mod_lt body.length (show 0 < 2 ^ 32 by decide)
  rw [List.length_take] at lengths
  omega

/-- Further calls return what is expected when the first does, and the others do on the rest of
the stream.
-/
theorem readFrames_writeFrame_iff {body output frame : Bytes} {calls : Nat} {rest : Bytes}
    {frames : List (Option Bytes)} (written : writeFrame body = .ok output)
    : readFrames (calls + 1) (output ++ rest) = .ok (some frame :: frames)
      ↔ body.take (body.length % 2 ^ 32) = frame
        ∧ readFrames calls (body.drop (body.length % 2 ^ 32) ++ rest) = .ok frames := by
  simp only [readFrames, readFrame_writeFrame rest written, bind, Except.bind]
  cases readFrames calls (body.drop (body.length % 2 ^ 32) ++ rest) <;> simp

/-- The frames written for a list of bodies are read back, and then the end of the stream,
exactly when the length of every body fits its prefix.
-/
theorem frames_read_back_iff {bodies outputs : List Bytes}
    (written : List.Forall₂ (fun body output => writeFrame body = .ok output) bodies outputs)
    : readFrames (bodies.length + 1) outputs.flatten = .ok (bodies.map some ++ [none])
      ↔ ∀ body ∈ bodies, body.length < 2 ^ 32 := by
  induction written with
  | nil => simp [readFrames, readFrame, bind, Except.bind]
  | @cons body output bodies outputs first _ ih =>
    rw [List.flatten_cons, List.length_cons, List.map_cons, List.cons_append,
      readFrames_writeFrame_iff first, List.forall_mem_cons, ← ih]
    by_cases fits : body.length < 2 ^ 32
    · rw [Nat.mod_eq_of_lt fits, List.take_length, List.drop_length, List.nil_append]
      simp only [fits, true_and]
    · simp only [cut_ne_self (Nat.le_of_not_lt fits), fits, false_and]

theorem frames_read_back_two
    : readFrames 3 [0, 0, 0, 2, 7, 9, 0, 0, 0, 0] = .ok [some [7, 9], some [], none] :=
  (@frames_read_back_iff [[7, 9], []] [[0, 0, 0, 2, 7, 9], [0, 0, 0, 0]]
    (.cons rfl (.cons rfl .nil))).mpr (by decide)

/-- A body of `2 ^ 32` bytes is sent under the prefix zero and read back as the empty frame. -/
theorem wrapped_frame_lost {body : Bytes} (long : body.length = 2 ^ 32)
    : ∃ output, writeFrame body = .ok output
      ∧ readFrames 2 output ≠ .ok [some body, none] := by
  have written : writeFrame body = .ok ((writeU32 0).reverse ++ body) := by
    simp only [writeFrame, long, Nat.mod_self, Nat.not_lt_zero, gt_iff_lt, if_false]
  refine ⟨_, written, ?_⟩
  rw [← List.append_nil (_ ++ body), Ne, readFrames_writeFrame_iff written]
  exact fun read => cut_ne_self (Nat.le_of_eq long.symm) read.1

theorem frames_read_back_fails
    : ∃ output, writeFrame (List.replicate (2 ^ 32) 0) = .ok output
      ∧ readFrames 2 output ≠ .ok [some (List.replicate (2 ^ 32) 0), none] :=
  wrapped_frame_lost List.length_replicate

-- Base64

def base64Letters : List Char :=
  "ABCDEFGHIJKLMNOPQRSTUVWXYZabcdefghijklmnopqrstuvwxyz0123456789+/".toList

theorem length_base64Letters : base64Letters.length = 64 := by decide

def base64Letter (value : Nat) : Char :=
  base64Letters.get ⟨value &&& 63, by
    rw [length_base64Letters]
    exact Nat.lt_of_le_of_lt Nat.and_le_right (by decide)⟩

def base64Word (a b c : UInt8) : Nat :=
  (a.toNat <<< 16) ||| (b.toNat <<< 8) ||| c.toNat

def base64Chunk (chunk : Bytes) : List Char :=
  let n := base64Word (chunk.getD 0 0) (chunk.getD 1 0) (chunk.getD 2 0)
  [base64Letter (n >>> 18), base64Letter (n >>> 12),
    if chunk.length > 1 then base64Letter (n >>> 6) else '=',
    if chunk.length > 2 then base64Letter n else '=']

def base64Encode : Bytes → List Char
  | [] => []
  | [a] => base64Chunk [a]
  | [a, b] => base64Chunk [a, b]
  | a :: b :: c :: rest => base64Chunk [a, b, c] ++ base64Encode rest

def base64Value (char : Char) : Option Nat :=
  if 'A' ≤ char ∧ char ≤ 'Z' then some (char.toNat - 'A'.toNat)
  else if 'a' ≤ char ∧ char ≤ 'z' then some (char.toNat - 'a'.toNat + 26)
  else if '0' ≤ char ∧ char ≤ '9' then some (char.toNat - '0'.toNat + 52)
  else if char = '+' then some 62
  else if char = '/' then some 63
  else none

/-- The decoder of RFC 4648: groups of four letters, of which the last may be padded, and then
has no bits beyond its bytes.
-/
def base64Decode : List Char → Option Bytes
  | [] => some []
  | w :: x :: y :: z :: rest => do
    let first ← base64Value w
    let second ← base64Value x
    let a := UInt8.ofNat (first * 4 + second / 16)
    if rest = [] ∧ y = '=' ∧ z = '=' then
      if second % 16 = 0 then some [a] else none
    else
      let third ← base64Value y
      let b := UInt8.ofNat (second % 16 * 16 + third / 4)
      if rest = [] ∧ z = '=' then
        if third % 4 = 0 then some [a, b] else none
      else
        let fourth ← base64Value z
        let bytes ← base64Decode rest
        some (a :: b :: UInt8.ofNat (third % 4 * 64 + fourth) :: bytes)
  | _ => none

theorem base64Value_get
    : ∀ index : Fin base64Letters.length,
        base64Value (base64Letters.get index) = some index.val := by
  decide

theorem base64Value_letter (value : Nat)
    : base64Value (base64Letter value) = some (value % 64) := by
  rw [base64Letter, base64Value_get]
  exact congrArg some (Nat.and_two_pow_sub_one_eq_mod value 6)

theorem base64Letter_ne_pad (value : Nat) : base64Letter value ≠ '=' := by
  intro same
  have read := base64Value_letter value
  rw [same] at read
  exact absurd read (by simp [base64Value])

theorem base64Word_eq (a b c : UInt8)
    : base64Word a b c = a.toNat * 65536 + b.toNat * 256 + c.toNat := by
  have second := b.toNat_lt
  have third : c.toNat < 2 ^ 8 := c.toNat_lt
  rw [base64Word, Nat.or_assoc, ← Nat.shiftLeft_add_eq_or_of_lt third,
    ← Nat.shiftLeft_add_eq_or_of_lt (by rw [Nat.shiftLeft_eq]; omega), Nat.shiftLeft_eq,
    Nat.shiftLeft_eq]
  omega

/-- The letters of a chunk stand for its bits in groups of six. -/
theorem base64Value_chunk (a b c : UInt8)
    : base64Value (base64Letter (base64Word a b c >>> 18)) = some (a.toNat / 4)
      ∧ base64Value (base64Letter (base64Word a b c >>> 12))
        = some (a.toNat % 4 * 16 + b.toNat / 16)
      ∧ base64Value (base64Letter (base64Word a b c >>> 6))
        = some (b.toNat % 16 * 4 + c.toNat / 64)
      ∧ base64Value (base64Letter (base64Word a b c)) = some (c.toNat % 64) := by
  have first := a.toNat_lt
  have second := b.toNat_lt
  have third := c.toNat_lt
  simp only [base64Value_letter, Nat.shiftRight_eq_div_pow, base64Word_eq, Option.some.injEq]
  omega

theorem base64Encode_one (a : UInt8)
    : base64Encode [a]
      = [base64Letter (base64Word a 0 0 >>> 18), base64Letter (base64Word a 0 0 >>> 12),
        '=', '='] := rfl

theorem base64Encode_two (a b : UInt8)
    : base64Encode [a, b]
      = [base64Letter (base64Word a b 0 >>> 18), base64Letter (base64Word a b 0 >>> 12),
        base64Letter (base64Word a b 0 >>> 6), '='] := rfl

theorem base64Encode_three (a b c : UInt8) (rest : Bytes)
    : base64Encode (a :: b :: c :: rest)
      = base64Letter (base64Word a b c >>> 18) :: base64Letter (base64Word a b c >>> 12)
        :: base64Letter (base64Word a b c >>> 6) :: base64Letter (base64Word a b c)
        :: base64Encode rest := rfl

/-- The bytes of a chunk are put together again from the values of its letters. -/
theorem chunk_bytes (a b c : UInt8)
    : UInt8.ofNat (a.toNat / 4 * 4 + (a.toNat % 4 * 16 + b.toNat / 16) / 16) = a
      ∧ UInt8.ofNat ((a.toNat % 4 * 16 + b.toNat / 16) % 16 * 16
          + (b.toNat % 16 * 4 + c.toNat / 64) / 4) = b
      ∧ UInt8.ofNat ((b.toNat % 16 * 4 + c.toNat / 64) % 4 * 64 + c.toNat % 64) = c := by
  have second := b.toNat_lt
  have third := c.toNat_lt
  simp only [← UInt8.toNat_inj, UInt8.toNat_ofNat']
  have first := a.toNat_lt
  omega

/-- The decoder recovers the bytes of an encoded text. -/
theorem base64Decode_encode (bytes : Bytes) : base64Decode (base64Encode bytes) = some bytes := by
  induction bytes using base64Encode.induct with
  | case1 => rfl
  | case2 a =>
    obtain ⟨w, x, -, -⟩ := base64Value_chunk a 0 0
    have bits : (a.toNat % 4 * 16 + UInt8.toNat 0 / 16) % 16 = 0 := by simp
    rw [base64Encode_one, base64Decode, w, x]
    simp only [Option.bind_eq_bind, Option.bind_some, and_self, if_true, bits,
      (chunk_bytes a 0 0).1]
  | case3 a b =>
    obtain ⟨w, x, y, -⟩ := base64Value_chunk a b 0
    obtain ⟨first, second, -⟩ := chunk_bytes a b 0
    have bits : (b.toNat % 16 * 4 + UInt8.toNat 0 / 64) % 4 = 0 := by simp
    rw [base64Encode_two, base64Decode, w, x, y]
    simp only [Option.bind_eq_bind, Option.bind_some, base64Letter_ne_pad, false_and, and_false,
      if_false, and_self, if_true, bits, first, second]
  | case4 a b c rest ih =>
    obtain ⟨w, x, y, z⟩ := base64Value_chunk a b c
    obtain ⟨first, second, third⟩ := chunk_bytes a b c
    rw [base64Encode_three, base64Decode, w, x, y, z, ih]
    simp only [Option.bind_eq_bind, Option.bind_some, base64Letter_ne_pad, and_false, if_false,
      first, second, third]

theorem length_base64Encode (bytes : Bytes)
    : (base64Encode bytes).length = 4 * ((bytes.length + 2) / 3) := by
  induction bytes using base64Encode.induct with
  | case1 => rfl
  | case2 a => simp [base64Encode_one]
  | case3 a b => simp [base64Encode_two]
  | case4 a b c rest ih =>
    simp only [base64Encode_three, List.length_cons, ih]
    omega

/-- An encoded text is letters of the alphabet and then the padding of the last chunk. -/
theorem base64Encode_letters (bytes : Bytes)
    : ∃ letters : List Char, (∀ char ∈ letters, (base64Value char).isSome)
      ∧ base64Encode bytes
        = letters ++ List.replicate ((3 - bytes.length % 3) % 3) '=' := by
  induction bytes using base64Encode.induct with
  | case1 => exact ⟨[], by simp, rfl⟩
  | case2 a =>
    refine ⟨[base64Letter (base64Word a 0 0 >>> 18), base64Letter (base64Word a 0 0 >>> 12)],
      ?_, base64Encode_one a⟩
    simp [base64Value_letter]
  | case3 a b =>
    refine ⟨[base64Letter (base64Word a b 0 >>> 18), base64Letter (base64Word a b 0 >>> 12),
      base64Letter (base64Word a b 0 >>> 6)], ?_, base64Encode_two a b⟩
    simp [base64Value_letter]
  | case4 a b c rest ih =>
    obtain ⟨letters, known, same⟩ := ih
    refine ⟨base64Letter (base64Word a b c >>> 18) :: base64Letter (base64Word a b c >>> 12)
      :: base64Letter (base64Word a b c >>> 6) :: base64Letter (base64Word a b c) :: letters,
      ?_, ?_⟩
    · simpa [base64Value_letter] using known
    · simp only [base64Encode_three, same, List.cons_append, List.length_cons]
      rw [show (rest.length + 1 + 1 + 1) % 3 = rest.length % 3 by omega]

/-- The encoding is standard base64: four letters for each chunk of three bytes, padding at the
end only, and the bytes are recovered by the decoder, so that no two payloads have one text.
-/
theorem base64Encode_standard (bytes : Bytes)
    : (base64Encode bytes).length = 4 * ((bytes.length + 2) / 3)
      ∧ (∃ letters : List Char, (∀ char ∈ letters, (base64Value char).isSome)
        ∧ base64Encode bytes
          = letters ++ List.replicate ((3 - bytes.length % 3) % 3) '=')
      ∧ base64Decode (base64Encode bytes) = some bytes
      ∧ ∀ other, base64Encode other = base64Encode bytes → other = bytes := by
  refine ⟨length_base64Encode bytes, base64Encode_letters bytes, base64Decode_encode bytes, ?_⟩
  intro other same
  have read := base64Decode_encode other
  rw [same, base64Decode_encode bytes] at read
  exact (Option.some.inj read).symm

example : base64Encode [102, 111, 111, 98] = "Zm9vYg==".toList := by decide

end Epochs.Server
