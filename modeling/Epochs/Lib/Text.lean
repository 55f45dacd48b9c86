import Epochs.Lib.Utf8

/-! Operations on text, as the standard library of the source language defines them. -/

namespace Epochs.Lib.Text

def isWhitespace (char : Char) : Bool :=
  let code := char.toNat
  (9 ≤ code ∧ code ≤ 13) ∨ code = 0x20 ∨ code = 0x85 ∨ code = 0xA0 ∨ code = 0x1680
    ∨ (0x2000 ≤ code ∧ code ≤ 0x200A) ∨ code = 0x2028 ∨ code = 0x2029 ∨ code = 0x202F
    ∨ code = 0x205F ∨ code = 0x3000

def trimChars (chars : List Char) : List Char :=
  ((chars.dropWhile isWhitespace).reverse.dropWhile isWhitespace).reverse

def trim (text : String) : String := String.ofList (trimChars text.toList)

def splitChars (isSeparator : Char → Bool) : List Char → List (List Char)
  | [] => [[]]
  | char :: rest =>
    if isSeparator char then [] :: splitChars isSeparator rest
    else
      match splitChars isSeparator rest with
      | [] => [[char]]
      | part :: parts => (char :: part) :: parts

def split (separator : Char) (text : String) : List String :=
  (splitChars (· = separator) text.toList).map String.ofList

def splitWhitespace (text : String) : List String :=
  ((splitChars isWhitespace text.toList).filter (· ≠ [])).map String.ofList

def dropReturn (line : List Char) : List Char :=
  if line.getLast? = some '\r' then line.dropLast else line

/-- The lines of a text. A line feed at the end of the text starts no line, and a carriage return
belongs to the end of a line only before a line feed.
-/
def lines (text : String) : List String :=
  let parts := splitChars (· = '\n') text.toList
  (parts.dropLast.map dropReturn ++ parts.getLast?.toList.filter (· ≠ [])).map String.ofList

def stripChars : List Char → List Char → Option (List Char)
  | [], rest => some rest
  | _ :: _, [] => none
  | char :: front, found :: rest => if char = found then stripChars front rest else none

def stripFront (front text : String) : Option String :=
  (stripChars front.toList text.toList).map String.ofList

def startsWith (text front : String) : Bool := (stripFront front text).isSome

def lowerChar (char : Char) : Char :=
  if 'A' ≤ char ∧ char ≤ 'Z' then Char.ofNat (char.toNat + 32) else char

def upperChar (char : Char) : Char :=
  if 'a' ≤ char ∧ char ≤ 'z' then Char.ofNat (char.toNat - 32) else char

def lower (text : String) : String := String.ofList (text.toList.map lowerChar)

def upper (text : String) : String := String.ofList (text.toList.map upperChar)

def eqIgnoreCase (first second : String) : Bool := lower first = lower second

def replace (old new : Char) (text : String) : String :=
  String.ofList (text.toList.map fun char => if char = old then new else char)

def join (separator : String) : List String → String
  | [] => ""
  | [last] => last
  | first :: second :: rest => first ++ separator ++ join separator (second :: rest)

def digitsValue : (value : Nat) → List Char → Option Nat
  | value, [] => some value
  | value, digit :: rest =>
    if '0' ≤ digit ∧ digit ≤ '9' then digitsValue (10 * value + (digit.toNat - 48)) rest
    else none

def parseDigits (chars : List Char) : Option Nat :=
  if chars = [] then none else digitsValue 0 chars

def parseI64 (text : String) : Option Int :=
  match text.toList with
  | '-' :: digits =>
    match parseDigits digits with
    | some value => if value ≤ 2 ^ 63 then some (-(value : Int)) else none
    | none => none
  | '+' :: digits =>
    match parseDigits digits with
    | some value => if value < 2 ^ 63 then some (value : Int) else none
    | none => none
  | digits =>
    match parseDigits digits with
    | some value => if value < 2 ^ 63 then some (value : Int) else none
    | none => none

def len (text : String) : Nat := (Utf8.encode text).length

end Epochs.Lib.Text
