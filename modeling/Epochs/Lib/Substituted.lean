import Mathlib.Logic.Function.Basic

/-! Lists that differ in exactly one element. -/

namespace Epochs.Lib

variable {α β : Type}

/-- The second list is the first with one element replaced by another. -/
inductive Substituted : List α → List α → Prop
  | head {first second : α} {rest : List α} (differ : first ≠ second)
    : Substituted (first :: rest) (second :: rest)
  | tail {element : α} {rest other : List α} (later : Substituted rest other)
    : Substituted (element :: rest) (element :: other)

namespace Substituted

variable {first second : List α}

theorem length_eq (replaced : Substituted first second)
    : first.length = second.length := by
  induction replaced with
  | head => rfl
  | tail _ ih => rw [List.length_cons, List.length_cons, ih]

theorem ne (replaced : Substituted first second) : first ≠ second := by
  induction replaced with
  | head differ => exact fun same => differ (List.cons.inj same).1
  | tail _ ih => exact fun same => ih (List.cons.inj same).2

/-- The replaced element lies in one of two parts, and the other parts are the same. -/
theorem of_append {front back front' back' : List α} (same : front.length = front'.length)
    (replaced : Substituted (front ++ back) (front' ++ back'))
    : (front = front' ∧ Substituted back back') ∨ (Substituted front front' ∧ back = back') := by
  induction front generalizing front' with
  | nil =>
    obtain rfl := List.length_eq_zero_iff.mp same.symm
    exact .inl ⟨rfl, replaced⟩
  | cons element front ih =>
    obtain _ | ⟨element', front'⟩ := front'
    · simp at same
    · have lengths : front.length = front'.length := by simpa using same
      generalize joined : element :: front ++ back = whole at replaced
      generalize joined' : element' :: front' ++ back' = whole' at replaced
      cases replaced with
      | head differ =>
        obtain ⟨rfl, rfl⟩ := List.cons.inj joined
        obtain ⟨rfl, rest⟩ := List.cons.inj joined'
        obtain ⟨rfl, rfl⟩ := List.append_inj rest lengths.symm
        exact .inr ⟨.head differ, rfl⟩
      | tail later =>
        obtain ⟨rfl, rfl⟩ := List.cons.inj joined
        obtain ⟨rfl, rfl⟩ := List.cons.inj joined'
        rcases ih lengths later with ⟨rfl, inBack⟩ | ⟨inFront, rfl⟩
        · exact .inl ⟨rfl, inBack⟩
        · exact .inr ⟨.tail inFront, rfl⟩

/-- Replacing one element of a list by one that differs. -/
theorem modify {change : α → α} (changes : ∀ element, element ≠ change element) {data : List α}
    {index : Nat} (inside : index < data.length)
    : Substituted data (data.modify index change) := by
  induction data generalizing index with
  | nil => simp at inside
  | cons element data ih =>
    cases index with
    | zero => exact .head (changes element)
    | succ index => exact .tail (ih (Nat.lt_of_succ_lt_succ inside))

/-- Folding an update that loses neither the state nor the element tells the lists apart. -/
theorem foldl_ne {update : β → α → β} (keepsState : ∀ element, Function.Injective (update · element))
    (keepsElement : ∀ state, Function.Injective (update state))
    (replaced : Substituted first second) (start : β)
    : first.foldl update start ≠ second.foldl update start := by
  have carries : ∀ (data : List α) {left right : β}, left ≠ right →
      data.foldl update left ≠ data.foldl update right := by
    intro data
    induction data with
    | nil => exact fun differ => differ
    | cons element data ih => exact fun differ => ih ((keepsState element).ne differ)
  induction replaced generalizing start with
  | head differ => exact carries _ ((keepsElement start).ne differ)
  | tail _ ih => exact ih _

end Substituted

end Epochs.Lib
