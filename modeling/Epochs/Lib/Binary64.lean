import Epochs.Lib.Text

/-! Double-precision numbers that decimal literals, negation and subtraction can produce: signed
finite numbers and infinities. Rounding is to nearest, ties to even.
-/

namespace Epochs.Lib

/-- The absolute value of a number: `mantissa * 2 ^ (exponent - 1074)`, or infinity. -/
inductive Magnitude where
  | finite (mantissa exponent : Nat)
  | infinite
  deriving DecidableEq

structure Binary64 where
  negative : Bool
  magnitude : Magnitude
  deriving DecidableEq

namespace Magnitude

/-- Round a quotient to the nearest integer, ties to even. -/
def nearest (numerator denominator : Nat) : Nat :=
  let quotient := numerator / denominator
  let rest := 2 * (numerator % denominator)
  if denominator < rest ∨ (rest = denominator ∧ quotient % 2 = 1) then quotient + 1 else quotient

/-- The least exponent at which a quotient, scaled by `2 ^ 1074`, has at most 53 bits. -/
def exponentOf (scaled denominator : Nat) : Nat :=
  let guess := Nat.log2 scaled - Nat.log2 denominator - 53
  if scaled < denominator * 2 ^ (guess + 53) then guess
  else if scaled < denominator * 2 ^ (guess + 54) then guess + 1
  else guess + 2

def ofRatio (numerator denominator : Nat) : Magnitude :=
  let scaled := numerator * 2 ^ 1074
  let exponent := exponentOf scaled denominator
  let mantissa := nearest scaled (denominator * 2 ^ exponent)
  let (mantissa, exponent) :=
    if mantissa = 2 ^ 53 then (2 ^ 52, exponent + 1) else (mantissa, exponent)
  if 2045 < exponent then .infinite else .finite mantissa exponent

def integralDigits (numerator denominator : Nat) : Nat :=
  if numerator < denominator then 0 else (toString (numerator / denominator)).length

/-- The zeros between the decimal point and the first digit of a number below one. -/
def leadingZeros : (budget numerator denominator : Nat) → Nat
  | 0, _, _ => 0
  | budget + 1, numerator, denominator =>
    if denominator ≤ 10 * numerator then 0
    else 1 + leadingZeros budget (10 * numerator) denominator

/-- The shortest list of digits, at most 17, whose decimal number rounds to the given one; of
two of the same length the nearer one. The decimal number is `digits * 10 ^ (point - count)`.
-/
def shortest (value : Magnitude) (numerator denominator : Nat) (point : Int)
    : (budget count : Nat) → Nat × Nat
  | 0, count => (0, count)
  | budget + 1, count =>
    let scale := (count : Int) - point
    let up := 10 ^ scale.toNat
    let down := 10 ^ (-scale).toNat
    let low := numerator * up / (denominator * down)
    let fitsLow := low ≠ 0 ∧ ofRatio (low * down) up = value
    let fitsHigh := ofRatio ((low + 1) * down) up = value
    let rest := 2 * (numerator * up % (denominator * down))
    if fitsLow ∧ (¬ fitsHigh ∨ rest ≤ denominator * down) then (low, count)
    else if fitsHigh then (low + 1, count)
    else shortest value numerator denominator point budget (count + 1)

def placePoint (digits : List Char) (point : Int) : List Char :=
  if point ≤ 0 then
    '0' :: '.' :: (List.replicate (-point).toNat '0' ++ digits)
  else if digits.length ≤ point.toNat then
    digits ++ List.replicate (point.toNat - digits.length) '0'
  else
    digits.take point.toNat ++ '.' :: digits.drop point.toNat

/-- The displayed form of an absolute value: the shortest digits, without an exponent. -/
def display (value : Magnitude) : List Char :=
  match value with
  | .infinite => "inf".toList
  | .finite 0 _ => ['0']
  | .finite mantissa exponent =>
    let numerator := mantissa * 2 ^ exponent
    let denominator := 2 ^ 1074
    let point : Int :=
      if numerator < denominator then -(leadingZeros 400 numerator denominator : Int)
      else integralDigits numerator denominator
    let (digits, count) := shortest value numerator denominator point 17 1
    let written := (toString digits).toList
    -- Rounding up to a power of ten adds a digit, and only then is the last digit a zero.
    let shown := (written.reverse.dropWhile (· = '0')).reverse
    placePoint shown (point + ((written.length : Int) - count))

end Magnitude

namespace Binary64

def parse (integral fraction : List Char) : Option Binary64 :=
  match Text.parseDigits (integral ++ fraction) with
  | some digits =>
    some { negative := false, magnitude := Magnitude.ofRatio digits (10 ^ fraction.length) }
  | none => none

def neg (value : Binary64) : Binary64 := { value with negative := !value.negative }

def isZero (value : Binary64) : Bool :=
  match value.magnitude with
  | .finite mantissa _ => mantissa = 0
  | .infinite => false

/-- Numerical equality, for which the zeros of both signs are equal. -/
def eq (first second : Binary64) : Bool :=
  (first.isZero ∧ second.isZero) ∨ first = second

def scaled (value : Binary64) : Option Int :=
  match value.magnitude with
  | .finite mantissa exponent =>
    let multiple : Int := mantissa * 2 ^ exponent
    some (if value.negative then -multiple else multiple)
  | .infinite => none

/-- Whether the rounded difference of two numbers is below the machine epsilon `2 ^ -52`. The
difference of equal infinities is not a number, and no other difference of one is small.
-/
def close (first second : Binary64) : Bool :=
  match first.scaled, second.scaled with
  | some left, some right =>
    match Magnitude.ofRatio (left - right).natAbs (2 ^ 1074) with
    | .finite mantissa exponent => mantissa * 2 ^ exponent < 2 ^ 1022
    | .infinite => false
  | _, _ => false

def display (value : Binary64) : String :=
  String.ofList (if value.negative then '-' :: value.magnitude.display else value.magnitude.display)

-- Shortest digits are displayed, also where the nearest digits of that length round elsewhere and
-- where the number lies just below a power of ten.
example
    : [("0", "1"), ("120", "0"), ("0", "30000000000000004"), ("9007199254740993", "0"),
        ("0", "0000001"), ("0", "00000012")].map
        (fun text => (parse text.1.toList text.2.toList).map display)
      = ["0.1", "120", "0.30000000000000004", "9007199254740992", "0.0000001", "0.00000012"].map
        some := by
  decide +kernel

end Binary64
end Epochs.Lib
