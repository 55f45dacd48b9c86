import Mathlib.Data.List.Basic

/-! Items of different widths laid out one after the other. -/

namespace Epochs.Lib.Blocks

variable {α β : Type} (width : α → Nat)

/-- The item stands at the offset when the items are laid out from a base on. -/
def Placed : (base : Nat) → (items : List α) → (offset : Nat) → (item : α) → Prop
  | _, [], _, _ => False
  | base, head :: rest, offset, item =>
    (offset = base ∧ item = head) ∨ Placed (base + width head) rest offset item

def finish : (base : Nat) → List α → Nat
  | base, [] => base
  | base, head :: rest => finish (base + width head) rest

variable {width} {base offset : Nat} {items : List α} {item : α}

theorem le_finish (width : α → Nat) (base : Nat) (items : List α)
    : base ≤ finish width base items := by
  induction items generalizing base with
  | nil => exact Nat.le_refl _
  | cons head rest ih => exact Nat.le_trans (Nat.le_add_right _ _) (ih _)

theorem Placed.mem (placed : Placed width base items offset item) : item ∈ items := by
  induction items generalizing base with
  | nil => exact placed.elim
  | cons head rest ih =>
    rcases placed with ⟨-, rfl⟩ | later
    · exact List.mem_cons_self
    · exact List.mem_cons_of_mem _ (ih later)

theorem exists_placed (base : Nat) (member : item ∈ items)
    : ∃ offset, Placed width base items offset item := by
  induction items generalizing base with
  | nil => simp at member
  | cons head rest ih =>
    rcases List.mem_cons.mp member with rfl | later
    · exact ⟨base, .inl ⟨rfl, rfl⟩⟩
    · obtain ⟨offset, placed⟩ := ih (base + width head) later
      exact ⟨offset, .inr placed⟩

theorem Placed.within (placed : Placed width base items offset item)
    : base ≤ offset ∧ offset + width item ≤ finish width base items := by
  induction items generalizing base with
  | nil => exact placed.elim
  | cons head rest ih =>
    rcases placed with ⟨rfl, rfl⟩ | later
    · exact ⟨Nat.le_refl _, le_finish width _ rest⟩
    · obtain ⟨lower, upper⟩ := ih later
      exact ⟨by omega, upper⟩

/-- Two items stand at the same place, or one of them ends before the other begins. -/
theorem Placed.disjoint {otherOffset : Nat} {other : α}
    (placed : Placed width base items offset item)
    (otherPlaced : Placed width base items otherOffset other)
    : offset = otherOffset ∧ item = other
      ∨ offset + width item ≤ otherOffset
      ∨ otherOffset + width other ≤ offset := by
  induction items generalizing base with
  | nil => exact placed.elim
  | cons head rest ih =>
    rcases placed with ⟨rfl, rfl⟩ | later
    · rcases otherPlaced with ⟨rfl, rfl⟩ | otherLater
      · exact .inl ⟨rfl, rfl⟩
      · exact .inr (.inl otherLater.within.1)
    · rcases otherPlaced with ⟨rfl, rfl⟩ | otherLater
      · exact .inr (.inr later.within.1)
      · exact ih later otherLater

/-- Every position from the base to the end is inside an item. -/
theorem exists_covering {position : Nat} (lower : base ≤ position)
    (upper : position < finish width base items)
    : ∃ offset item, Placed width base items offset item
        ∧ offset ≤ position ∧ position < offset + width item := by
  induction items generalizing base with
  | nil =>
    rw [finish] at upper
    omega
  | cons head rest ih =>
    by_cases first : position < base + width head
    · exact ⟨base, head, .inl ⟨rfl, rfl⟩, lower, first⟩
    · obtain ⟨offset, item, placed, covers⟩ := ih (Nat.le_of_not_lt first) upper
      exact ⟨offset, item, .inr placed, covers⟩

/-- One more item stands where the others end. -/
theorem placed_concat {last : α}
    : Placed width base (items ++ [last]) offset item
      ↔ Placed width base items offset item ∨ offset = finish width base items ∧ item = last := by
  induction items generalizing base with
  | nil => simp [Placed, finish]
  | cons head rest ih => simp only [List.cons_append, Placed, finish, ih, or_assoc]

section Encoded

variable {encode : α → List β} (widths : ∀ item, (encode item).length = width item)
include widths

theorem finish_eq_length (header : List β) (items : List α)
    : finish width header.length items = (header ++ items.flatMap encode).length := by
  induction items generalizing header with
  | nil => simp [finish]
  | cons head rest ih =>
    rw [finish, List.flatMap_cons, ← List.append_assoc, ← ih, List.length_append, widths]

/-- The elements from an item's offset on, as many as it is wide, are its encoding. -/
theorem Placed.slice {header : List β}
    (placed : Placed width header.length items offset item)
    : ((header ++ items.flatMap encode).drop offset).take (width item) = encode item := by
  induction items generalizing header with
  | nil => exact placed.elim
  | cons head rest ih =>
    rcases placed with ⟨rfl, rfl⟩ | later
    · rw [List.drop_left, List.flatMap_cons, ← widths, List.take_left]
    · rw [← widths, ← List.length_append] at later
      rw [List.flatMap_cons, ← List.append_assoc]
      exact ih later

end Encoded
end Epochs.Lib.Blocks
