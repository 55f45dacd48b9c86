import Epochs.Lib.Binary64
import Epochs.Lib.SortedMap

/-! Runtime values. A map lists its entries in the order of their keys. -/

namespace Epochs.Ql

open Lib

inductive Value where
  | null
  | bool (value : Bool)
  | int (value : Int)
  | float (value : Binary64)
  | string (value : String)
  | map (entries : List (String × Value))

namespace Value

def fromBytes (bytes : Bytes) : Value := .string (Utf8.decodeLossy bytes)

/-- The bytes a scalar is stored as. Its type is not stored. -/
def toStorageBytes : Value → Except String Bytes
  | null => .ok []
  | bool value => .ok (Utf8.encode (if value then "true" else "false"))
  | int value => .ok (Utf8.encode (toString value))
  | float value => .ok (Utf8.encode value.display)
  | string value => .ok (Utf8.encode value)
  | map _ => .error "cannot store nested maps as a single HAMT value yet"

def isTruthy : Value → Bool
  | null => false
  | bool value => value
  | int value => value ≠ 0
  | float value => !value.isZero
  | string value => value ≠ ""
  | map entries => !entries.isEmpty

mutual

/-- Equality of values of the same type. -/
def eq : Value → Value → Bool
  | null, null => true
  | bool first, bool second => first = second
  | int first, int second => first = second
  | float first, float second => first.eq second
  | string first, string second => first = second
  | map first, map second => eqEntries first second
  | _, _ => false

def eqEntries : List (String × Value) → List (String × Value) → Bool
  | [], [] => true
  | (name, first) :: rest, (other, second) :: others =>
    name = other && eq first second && eqEntries rest others
  | _, _ => false

end

/-- Equality in filters: besides values of one type, a text equals the integer it spells, and
a text of at least six bytes equals any text it begins, regardless of case.
-/
def valuesEq : Value → Value → Bool
  | null, null => true
  | bool first, bool second => first = second
  | int first, int second => first = second
  | float first, float second => first.close second
  | string first, string second =>
    first = second
      || (6 ≤ Text.len (Text.lower first) && Text.startsWith (Text.lower second) (Text.lower first))
      || (6 ≤ Text.len (Text.lower second) && Text.startsWith (Text.lower first) (Text.lower second))
  | int number, string text => Text.parseI64 text = some number
  | string text, int number => Text.parseI64 text = some number
  | _, _ => false

def toIndexKey : Value → Option Bytes
  | null => none
  | bool value => some (Utf8.encode (if value then "true" else "false"))
  | int value => some (Utf8.encode (toString value))
  | float value => some (Utf8.encode value.display)
  | string value => some (Utf8.encode value)
  | map _ => none

end Value

structure QueryResult where
  columns : List String
  rows : List (List Value)

namespace QueryResult

def empty : QueryResult := { columns := [], rows := [] }

end QueryResult

structure MutationResult where
  summary : String
  hash : Option String
  deriving DecidableEq

inductive ExecResult where
  | query (result : QueryResult)
  | mutation (result : MutationResult)

end Epochs.Ql
