import Epochs.Ql.Engine

/-! Equality of texts in filters. A text of six bytes or more equals every text it begins, whatever the
case of its letters, whether or not it is the text of a hash.
-/

namespace Epochs.Ql

open Lib Text

-- Texts that begin with others

theorem stripChars_isSome (front text : List Char)
    : (stripChars front text).isSome ↔ front <+: text := by
  induction front generalizing text with
  | nil => simp [stripChars]
  | cons char front ih =>
    cases text with
    | nil => simp [stripChars]
    | cons found rest =>
      rw [stripChars, List.cons_prefix_cons]
      by_cases same : char = found
      · rw [if_pos same, ih]
        simp [same]
      · rw [if_neg same]
        simp [same]

theorem startsWith_iff (text front : String)
    : startsWith text front ↔ front.toList <+: text.toList := by
  rw [startsWith, stripFront, Option.isSome_map, stripChars_isSome]

/-- The text stands for every text it begins: it has six bytes or more, and the letters of the other
text are the same up to case.
-/
def Shadows (front text : String) : Prop :=
  6 ≤ Text.len front ∧ (Text.lower front).toList <+: (Text.lower text).toList

instance (front text : String) : Decidable (Shadows front text) :=
  inferInstanceAs (Decidable (_ ∧ _))

theorem utf8Size_lowerChar (char : Char) : (lowerChar char).utf8Size = char.utf8Size := by
  unfold lowerChar
  split
  · rename_i upper
    have codes : 65 ≤ char.toNat ∧ char.toNat ≤ 90 := by
      simpa [Char.le_def, UInt32.le_iff_toNat_le] using upper
    have listed : ∀ code < 91, 65 ≤ code
        → (Char.ofNat (code + 32)).utf8Size = (Char.ofNat code).utf8Size := by
      decide
    simpa using listed char.toNat (by omega) codes.1
  · rfl

theorem len_eq (text : String) : len text = (text.toList.map Char.utf8Size).sum := by
  have encoded : Utf8.encode text = text.toList.flatMap String.utf8EncodeChar := by
    rw [← Utf8.encode_ofList, String.ofList_toList]
  rw [len, encoded]
  induction text.toList with
  | nil => rfl
  | cons char rest ih => simp [ih]

/-- Case does not change the number of bytes. -/
theorem len_lower (text : String) : len (lower text) = len text := by
  rw [len_eq, len_eq, lower, String.toList_ofList, List.map_map]
  congr 2
  funext char
  exact utf8Size_lowerChar char

theorem valuesEq_string (first second : String)
    : Value.valuesEq (.string first) (.string second)
      ↔ first = second ∨ Shadows first second ∨ Shadows second first := by
  simp only [Value.valuesEq, Bool.or_eq_true, Bool.and_eq_true, decide_eq_true_eq, startsWith_iff,
    len_lower, Shadows, or_assoc]

-- Comparisons of a field with a text

namespace Engine

def compared (op : BinaryOp) (var key text : String) : Expression :=
  .binary (.propertyAccess (.var var) key) op (.string text)

def ownFields : List String := ["hash", "message", "timestamp", "root_hamt"]

section

variable {bindings : Bindings} {bound : BoundCommit} {var key field : String}

theorem propertyOf_document (other : key ∉ ownFields) (stored : bound.state.get key = some (.string field))
    : propertyOf bound key = .string field := by
  simp only [ownFields, List.mem_cons, List.not_mem_nil, or_false, not_or] at other
  rw [propertyOf, if_neg other.1, if_neg other.2.1, if_neg other.2.2.1, if_neg other.2.2.2, stored]
  rfl

theorem passes_compared (op : BinaryOp) (text : String)
    (isBound : AssocMap.lookup var bindings = some bound)
    (property : propertyOf bound key = .string field)
    : passes (some (compared op var key text)) bindings
      = (binaryValue op (.string field) (.string text)).isTruthy := by
  simp [passes, evalBool, compared, evalExpr, boundTo, isBound, property, bind, Except.bind]

/-- A filter compares a field of a document with a text exactly, for `=` and for `!=`, unless one of the
two is longer than five bytes and begins the other up to the case of letters.
-/
theorem where_text_exact_iff (text : String) (isBound : AssocMap.lookup var bindings = some bound)
    (other : key ∉ ownFields) (stored : bound.state.get key = some (.string field))
    : ((passes (some (compared .eq var key text)) bindings ↔ field = text)
        ∧ (passes (some (compared .neq var key text)) bindings ↔ field ≠ text))
      ↔ field = text ∨ (¬ Shadows field text ∧ ¬ Shadows text field) := by
  have property := propertyOf_document other stored
  rw [passes_compared _ _ isBound property, passes_compared _ _ isBound property]
  simp only [binaryValue, Value.isTruthy, Bool.not_eq_true', ← Bool.not_eq_true, valuesEq_string]
  by_cases same : field = text
  · simp [same]
  · simp [same]

end

def boundWith (field : String) : BoundCommit where
  hash := Hash.zero
  commit :=
    { parents := [], rootHamt := Hash.zero, timestamp := 0, message := ""
      indexRoots := SortedMap.empty }
  state := SortedMap.empty.insert "name" (.string field)

theorem where_text_exact_iff_main
    : (passes (some (compared .eq "c" "name" "dev")) [("c", boundWith "main")] ↔ "main" = "dev")
      ∧ (passes (some (compared .neq "c" "name" "dev")) [("c", boundWith "main")]
        ↔ "main" ≠ "dev") :=
  (where_text_exact_iff "dev" rfl (by decide) (by rw [boundWith, SortedMap.get_insert_self])).mpr
    (.inr (by decide))

/-- A field that is no hash is equal to a longer text. -/
theorem where_text_not_exact
    : ¬ ("apples".toList.all Parser.isHexDigit ∧ "apples and pears".toList.all Parser.isHexDigit)
      ∧ ¬ ((passes (some (compared .eq "c" "name" "apples and pears")) [("c", boundWith "apples")]
          ↔ "apples" = "apples and pears")
        ∧ (passes (some (compared .neq "c" "name" "apples and pears")) [("c", boundWith "apples")]
          ↔ "apples" ≠ "apples and pears")) := by
  refine ⟨by decide, fun exact_ => ?_⟩
  have property : propertyOf (boundWith "apples") "name" = .string "apples" :=
    propertyOf_document (by decide) (by rw [boundWith, SortedMap.get_insert_self])
  have equal : passes (some (compared .eq "c" "name" "apples and pears"))
      [("c", boundWith "apples")] = true := by
    rw [passes_compared _ _ rfl property]
    decide
  exact absurd (exact_.1.mp equal) (by decide)

end Engine
end Epochs.Ql
