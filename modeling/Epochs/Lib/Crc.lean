import Mathlib.Data.BitVec

/-! Cyclic redundancy checks, least significant bit first: dividing out a byte through a table
is dividing out its bits, which is linear and loses nothing.
-/

namespace Epochs.Lib.Crc

variable {w : Nat} (poly : BitVec w)

def shift (c : BitVec w) : BitVec w :=
  if c.getLsbD 0 then poly ^^^ (c >>> 1) else c >>> 1

def shifts : Nat → BitVec w → BitVec w
  | 0, c => c
  | count + 1, c => shift poly (shifts count c)

/-- Divide out a byte, with the table of the remainders of single bytes. -/
def step (c : BitVec w) (byte : BitVec 8) : BitVec w :=
  shifts poly 8 ((c ^^^ byte.setWidth w) &&& 255#w) ^^^ (c >>> 8)

def feed (c : BitVec w) (bit : Bool) : BitVec w :=
  if c.getLsbD 0 ^^ bit then poly ^^^ (c >>> 1) else c >>> 1

variable {poly}

theorem getLsbD_shift (c : BitVec w) (position : Nat)
    : (shift poly c).getLsbD position
      = ((c.getLsbD 0 && poly.getLsbD position) ^^ c.getLsbD (position + 1)) := by
  unfold shift
  split <;> simp_all [Nat.add_comm]

theorem shift_xor (first second : BitVec w)
    : shift poly (first ^^^ second) = shift poly first ^^^ shift poly second := by
  refine BitVec.eq_of_getLsbD_eq fun position _ => ?_
  simp only [getLsbD_shift, BitVec.getLsbD_xor]
  cases first.getLsbD 0 <;> cases second.getLsbD 0 <;> cases poly.getLsbD position <;>
    simp [Bool.xor_comm]

theorem shifts_xor (count : Nat) (first second : BitVec w)
    : shifts poly count (first ^^^ second) = shifts poly count first ^^^ shifts poly count second := by
  induction count with
  | zero => rfl
  | succ count ih => rw [shifts, ih, shift_xor, shifts, shifts]

/-- Bits that are clear are divided out by shifting them away. -/
theorem shifts_of_clear {count : Nat} {c : BitVec w}
    (clear : ∀ position < count, c.getLsbD position = false)
    : shifts poly count c = c >>> count := by
  induction count with
  | zero => rw [shifts, BitVec.ushiftRight_zero]
  | succ count ih =>
    have low : (c >>> count).getLsbD 0 = false := by
      rw [BitVec.getLsbD_ushiftRight]
      exact clear _ (Nat.lt_succ_self count)
    rw [shifts, ih fun position below => clear position (Nat.lt_succ_of_lt below), shift, low,
      if_neg Bool.false_ne_true, BitVec.shiftRight_add]

/-- The table only needs the low byte, since the others are shifted down unchanged. -/
theorem step_eq_shifts (c : BitVec w) (byte : BitVec 8)
    : step poly c byte = shifts poly 8 (c ^^^ byte.setWidth w) := by
  generalize mixed : c ^^^ byte.setWidth w = value
  have low : ∀ position, (255#w).getLsbD position = decide (position < w ∧ position < 8) := by
    intro position
    rw [BitVec.getLsbD_ofNat, show 255 = 2 ^ 8 - 1 from rfl, Nat.testBit_two_pow_sub_one,
      Bool.decide_and]
  have parts : value = (value &&& 255#w) ^^^ (value &&& ~~~255#w) := by
    refine BitVec.eq_of_getLsbD_eq fun position inside => ?_
    simp only [BitVec.getLsbD_xor, BitVec.getLsbD_and, BitVec.getLsbD_not, low]
    by_cases small : position < 8 <;> simp [small, inside]
  have high : shifts poly 8 (value &&& ~~~255#w) = c >>> 8 := by
    rw [shifts_of_clear]
    · refine BitVec.eq_of_getLsbD_eq fun position inside => ?_
      rw [← mixed]
      simp only [BitVec.getLsbD_ushiftRight, BitVec.getLsbD_and, BitVec.getLsbD_xor,
        BitVec.getLsbD_not, BitVec.getLsbD_setWidth, low]
      by_cases reached : 8 + position < w
      · simp [reached]
      · simp [reached, BitVec.getLsbD_of_ge c _ (Nat.le_of_not_lt reached)]
    · intro position below
      by_cases inside : position < w <;> simp [low, below, inside]
  rw [step, mixed, ← high, ← shifts_xor, ← parts]

theorem shifts_shift (count : Nat) (c : BitVec w)
    : shifts poly count (shift poly c) = shift poly (shifts poly count c) := by
  induction count with
  | zero => rfl
  | succ count ih => rw [shifts, ih, shifts]

/-- A message may be added at once and divided out afterwards. -/
theorem foldl_feed {bits : List Bool} {message : BitVec w}
    (spells : ∀ position, message.getLsbD position = bits.getD position false) (c : BitVec w)
    : bits.foldl (feed poly) c = shifts poly bits.length (c ^^^ message) := by
  induction bits generalizing c message with
  | nil =>
    have empty : message = 0#w := BitVec.eq_of_getLsbD_eq fun position _ => by simp [spells]
    rw [empty, BitVec.xor_zero]
    rfl
  | cons bit rest ih =>
    have later : ∀ position, (message >>> 1).getLsbD position = rest.getD position false := by
      intro position
      rw [BitVec.getLsbD_ushiftRight, spells, Nat.add_comm, List.getD_cons_succ]
    -- The bits that follow are added one place higher, before this one is divided out.
    have first : feed poly c bit ^^^ message >>> 1 = shift poly (c ^^^ message) := by
      have here : message.getLsbD 0 = bit := spells 0
      refine BitVec.eq_of_getLsbD_eq fun position _ => ?_
      rw [getLsbD_shift, BitVec.getLsbD_xor, BitVec.getLsbD_xor, BitVec.getLsbD_xor, here,
        BitVec.getLsbD_ushiftRight, Nat.add_comm position 1, feed]
      cases c.getLsbD 0 ^^ bit <;> simp
    rw [List.foldl_cons, ih later, first, shifts_shift, List.length_cons, shifts]

section Faithful

variable (top : poly.getLsbD (w - 1) = true)
include top

/-- The bit that was divided out can be read off the top of the remainder. -/
theorem shift_injective : Function.Injective (shift poly) := by
  intro first second same
  have bits : ∀ position, ((first.getLsbD 0 && poly.getLsbD position) ^^ first.getLsbD (position + 1))
      = ((second.getLsbD 0 && poly.getLsbD position) ^^ second.getLsbD (position + 1)) := by
    intro position
    rw [← getLsbD_shift, same, getLsbD_shift]
  have lowest : first.getLsbD 0 = second.getLsbD 0 := by
    have above : w ≤ w - 1 + 1 := by omega
    have highest := bits (w - 1)
    rwa [BitVec.getLsbD_of_ge first _ above, BitVec.getLsbD_of_ge second _ above, top,
      Bool.and_true, Bool.and_true, Bool.xor_false, Bool.xor_false] at highest
  refine BitVec.eq_of_getLsbD_eq fun position _ => ?_
  cases position with
  | zero => exact lowest
  | succ position => simpa [lowest] using bits position

theorem shifts_injective (count : Nat) : Function.Injective (shifts poly count) := by
  induction count with
  | zero => exact fun _ _ same => same
  | succ count ih => exact (shift_injective top).comp ih

theorem step_injective (byte : BitVec 8) : Function.Injective (step poly · byte) := by
  intro first second same
  simp only [step_eq_shifts] at same
  exact (BitVec.xor_left_inj _).mp (shifts_injective top 8 same)

theorem step_injective_byte (wide : 8 ≤ w) (c : BitVec w) : Function.Injective (step poly c) := by
  intro first second same
  rw [step_eq_shifts, step_eq_shifts] at same
  have widened := (BitVec.xor_right_inj c).mp (shifts_injective top 8 same)
  refine BitVec.eq_of_getLsbD_eq fun position inside => ?_
  have bit := congrArg (BitVec.getLsbD · position) widened
  simpa [show position < w by omega] using bit

end Faithful

end Epochs.Lib.Crc
