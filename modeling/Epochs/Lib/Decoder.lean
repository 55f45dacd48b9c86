import Epochs.Lib.LittleEndian

/-! Decoders that consume a byte string from its front, and the relation between a decoder
and the encodings it reads back.
-/

namespace Epochs.Lib

/-- A decoder takes the unread bytes and returns a value with the bytes left over. -/
abbrev Decoder (ε α : Type) := StateT Bytes (Except ε) α

namespace Decoder

variable {ε α β : Type}

def many (decoder : Decoder ε α) : Nat → Decoder ε (List α)
  | 0 => pure []
  | count + 1 => do
    let value ← decoder
    let values ← many decoder count
    pure (value :: values)

def ensure (condition : Prop) [Decidable condition] (error : ε) : Decoder ε Unit :=
  if condition then pure () else throw error

def convert (result : Except ε α) : Decoder ε α := liftM result

/-- The decoder reads `encoding` as `value` whatever bytes follow, and consumes no more. -/
def Reads (decoder : Decoder ε α) (encoding : Bytes) (value : α) : Prop :=
  ∀ rest, decoder (encoding ++ rest) = .ok (value, rest)

/-- Evaluation of a sequence of decoders. -/
theorem bind_apply (decoder : Decoder ε α) (next : α → Decoder ε β) (source : Bytes)
    : (decoder >>= next) source
      = match decoder source with
        | .ok (value, rest) => next value rest
        | .error error => .error error := by
  cases outcome : decoder source <;> simp only [bind, StateT.bind, outcome, Except.bind]

/-- A sequence succeeds exactly when both decoders do, the second on what the first left. -/
theorem bind_eq_ok {decoder : Decoder ε α} {next : α → Decoder ε β} {source left : Bytes}
    {result : β}
    : (decoder >>= next) source = .ok (result, left)
      ↔ ∃ value rest, decoder source = .ok (value, rest) ∧ next value rest = .ok (result, left) := by
  rw [bind_apply]
  cases outcome : decoder source with
  | error error => simp
  | ok found =>
    obtain ⟨value, rest⟩ := found
    simp

theorem pure_apply (value : α) (source : Bytes)
    : (pure value : Decoder ε α) source = .ok (value, source) := rfl

theorem ensure_eq_ok {condition : Prop} [Decidable condition] {error : ε}
    {source rest : Bytes} {done : Unit}
    : ensure condition error source = .ok (done, rest) ↔ condition ∧ source = rest := by
  unfold ensure
  split
  · rename_i holds
    simp [holds, pure_apply]
  · rename_i fails
    simp [fails, throw, throwThe, MonadExceptOf.throw, StateT.lift, bind, Except.bind]

theorem convert_eq_ok {result : Except ε α} {source rest : Bytes} {value : α}
    : convert result source = .ok (value, rest) ↔ result = .ok value ∧ source = rest := by
  cases result with
  | error error => simp [convert, liftM, monadLift, MonadLift.monadLift, StateT.lift, bind, Except.bind]
  | ok found =>
    simp [convert, liftM, monadLift, MonadLift.monadLift, StateT.lift, bind, Except.bind,
      Pure.pure, Except.pure]

theorem Reads.pure (value : α) : Reads (Pure.pure value : Decoder ε α) [] value := by
  intro rest
  rfl

/-- Encodings are concatenated where decoders are sequenced. -/
theorem Reads.bind {decoder : Decoder ε α} {next : α → Decoder ε β} {head tail : Bytes}
    {value : α} {result : β} (first : Reads decoder head value)
    (second : Reads (next value) tail result)
    : Reads (decoder >>= next) (head ++ tail) result := by
  intro rest
  rw [List.append_assoc, bind_apply, first]
  exact second rest

/-- A check that holds reads nothing and does not stop the decoder. -/
theorem Reads.ensure {condition : Prop} [Decidable condition] {error : ε}
    {next : Unit → Decoder ε β} {encoding : Bytes} {result : β} (holds : condition)
    (after : Reads (next ()) encoding result)
    : Reads (Decoder.ensure condition error >>= next) encoding result := by
  intro rest
  rw [bind_apply, Decoder.ensure, if_pos holds]
  exact after rest

/-- A conversion that succeeds reads nothing and passes its value on. -/
theorem Reads.convert {converted : Except ε α} {next : α → Decoder ε β} {encoding : Bytes}
    {value : α} {result : β} (succeeds : converted = .ok value)
    (after : Reads (next value) encoding result)
    : Reads (Decoder.convert converted >>= next) encoding result := by
  intro rest
  rw [bind_apply, succeeds]
  exact after rest

/-- A last decoder may rewrite the value without reading on. -/
theorem Reads.result {decoder : Decoder ε α} {next : α → β} {encoding : Bytes} {value : α}
    (first : Reads decoder encoding value)
    : Reads (decoder >>= fun found => Pure.pure (next found)) encoding (next value) := by
  have both : Reads (decoder >>= fun found => Pure.pure (next found)) (encoding ++ [])
      (next value) := first.bind (Reads.pure (next value))
  rwa [List.append_nil] at both

/-- Repetition reads the concatenation of the encodings of its values. -/
theorem Reads.many {decoder : Decoder ε α} {encode : α → Bytes} {values : List α}
    (each : ∀ value ∈ values, Reads decoder (encode value) value)
    : Reads (decoder.many values.length) (values.flatMap encode) values := by
  induction values with
  | nil => exact Reads.pure []
  | cons value values ih =>
    have head := each value (by simp)
    have tail := ih (fun other member => each other (by simp [member]))
    exact head.bind tail.result

/-- The decoder consumes an encoding of the value it returns, and returns values with a property
only.
-/
def Inverts (decoder : Decoder ε α) (encode : α → Bytes) (property : α → Prop) : Prop :=
  ∀ source value rest, decoder source = .ok (value, rest)
    → source = encode value ++ rest ∧ property value

/-- Repetition consumes the encodings of its values, of which there are as many as asked for. -/
theorem Inverts.many {decoder : Decoder ε α} {encode : α → Bytes} {property : α → Prop}
    (each : Inverts decoder encode property) (count : Nat)
    : Inverts (decoder.many count) (fun values => values.flatMap encode)
        fun values => values.length = count ∧ ∀ value ∈ values, property value := by
  intro source values rest decoded
  induction count generalizing source rest values with
  | zero =>
    simp only [Decoder.many, pure_apply, Except.ok.injEq, Prod.mk.injEq] at decoded
    obtain ⟨rfl, rfl⟩ := decoded
    simp
  | succ count ih =>
    simp only [Decoder.many, bind_eq_ok] at decoded
    obtain ⟨value, middle, first, tail, left, repeated, same⟩ := decoded
    simp only [pure_apply, Except.ok.injEq, Prod.mk.injEq] at same
    obtain ⟨rfl, rfl⟩ := same
    obtain ⟨rfl, holds⟩ := each _ _ _ first
    obtain ⟨rfl, length, all⟩ := ih _ _ _ repeated
    refine ⟨by simp, by simp [length], fun other member => ?_⟩
    rcases List.mem_cons.mp member with rfl | later
    · exact holds
    · exact all other later

/-- What the decoder returns depends on the bytes it consumes alone. -/
def Exact (decoder : Decoder ε α) : Prop :=
  ∀ source value rest, decoder source = .ok (value, rest)
    → ∃ encoding, source = encoding ++ rest ∧ Reads decoder encoding value

/-- An encoding that is a prefix of another is the other, and stands for the same value. -/
theorem Reads.eq_of_isPrefix {decoder : Decoder ε α} {first second : Bytes} {value other : α}
    (reads : Reads decoder first value) (reads' : Reads decoder second other)
    (front : first <+: second)
    : first = second ∧ value = other := by
  obtain ⟨tail, rfl⟩ := front
  have whole := reads' []
  rw [List.append_nil, reads tail] at whole
  simp only [Except.ok.injEq, Prod.mk.injEq] at whole
  obtain ⟨rfl, rfl⟩ := whole
  exact ⟨(List.append_nil first).symm, rfl⟩

/-- No proper prefix of an encoding is accepted. -/
theorem Exact.rejects_isPrefix {decoder : Decoder ε α} (exact_ : Exact decoder) {front encoding : Bytes}
    {value : α} (reads : Reads decoder encoding value) (isPrefix : front <+: encoding)
    (shorter : front ≠ encoding)
    : ∃ error, decoder front = .error error := by
  cases outcome : decoder front with
  | error error => exact ⟨error, rfl⟩
  | ok found =>
    obtain ⟨other, rest⟩ := found
    obtain ⟨consumed, rfl, reads'⟩ := exact_ front other rest outcome
    have same := (reads'.eq_of_isPrefix reads ((List.prefix_append _ _).trans isPrefix)).1
    subst same
    exact absurd (isPrefix.eq_of_length_le (by simp)) shorter

end Decoder
end Epochs.Lib
