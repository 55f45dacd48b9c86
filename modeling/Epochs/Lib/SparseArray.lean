import Mathlib.Data.List.Basic
import Mathlib.Tactic.Common

/-! Sparse arrays packed by rank: a set of occupied positions and the list of their values in
ascending order. The value of a position stands at the number of occupied positions below it.
-/

namespace Epochs.Lib.SparseArray

variable {α β : Type}

def rank (occupied : Nat → Bool) (position : Nat) : Nat :=
  (List.range position).countP occupied

def get (occupied : Nat → Bool) (values : List α) (position : Nat) : Option α :=
  if occupied position then values[rank occupied position]? else none

def occupy (occupied : Nat → Bool) (position : Nat) : Nat → Bool :=
  fun other => occupied other || other == position

def vacate (occupied : Nat → Bool) (position : Nat) : Nat → Bool :=
  fun other => occupied other && other != position

-- Ranks

theorem rank_succ (occupied : Nat → Bool) (position : Nat)
    : rank occupied (position + 1)
      = rank occupied position + if occupied position then 1 else 0 := by
  simp [rank, List.range_succ, List.countP_append, List.countP_singleton]

theorem rank_mono (occupied : Nat → Bool) {low high : Nat} (le : low ≤ high)
    : rank occupied low ≤ rank occupied high := by
  induction le with
  | refl => exact Nat.le_refl _
  | step _ ih => exact Nat.le_trans ih (by rw [rank_succ]; omega)

variable {occupied : Nat → Bool}

/-- An occupied position has a smaller rank than every later position. -/
theorem rank_lt_rank {low high : Nat} (lt : low < high)
    (here : occupied low = true)
    : rank occupied low < rank occupied high := by
  have next : rank occupied (low + 1) = rank occupied low + 1 := by simp [rank_succ, here]
  have above : rank occupied (low + 1) ≤ rank occupied high := rank_mono occupied lt
  omega

/-- Distinct occupied positions have distinct ranks. -/
theorem rank_injective {left right : Nat}
    (atLeft : occupied left = true) (atRight : occupied right = true)
    (same : rank occupied left = rank occupied right)
    : left = right := by
  rcases Nat.lt_trichotomy left right with lt | eq | gt
  · have := rank_lt_rank lt atLeft
    omega
  · exact eq
  · have := rank_lt_rank gt atRight
    omega

variable {position : Nat}

/-- Ranks depend only on the positions below. -/
theorem rank_congr {first second : Nat → Bool}
    (same : ∀ below < position, first below = second below)
    : rank first position = rank second position := by
  induction position with
  | zero => rfl
  | succ position ih =>
    rw [rank_succ, rank_succ, same position (Nat.lt_succ_self _),
      ih (fun below lt => same below (Nat.lt_succ_of_lt lt))]

variable {width : Nat}

/-- Counting the occupied positions below a position inside any wider range. -/
theorem rank_below (occupied : Nat → Bool) (inside : position ≤ width)
    : rank (fun other => occupied other && decide (other < position)) width
      = rank occupied position := by
  induction inside with
  | refl =>
    apply rank_congr
    intro other lower
    simp [lower]
  | @step width inside ih =>
    have above : ¬ width < position := Nat.not_lt.mpr inside
    simp [rank_succ, ih, above]

theorem rank_occupy
    (free : occupied position = false) (other : Nat)
    : rank (occupy occupied position) other
      = rank occupied other + if position < other then 1 else 0 := by
  induction other with
  | zero => rfl
  | succ other ih =>
    rw [rank_succ, rank_succ, ih]
    by_cases same : other = position
    · subst same
      simp [occupy, free]
    · have bit : occupy occupied position other = occupied other := by simp [occupy, same]
      have place : (position < other + 1) ↔ (position < other) := by omega
      simp only [bit, place]
      omega

theorem rank_vacate
    (here : occupied position = true) (other : Nat)
    : rank (vacate occupied position) other + (if position < other then 1 else 0)
      = rank occupied other := by
  induction other with
  | zero => rfl
  | succ other ih =>
    rw [rank_succ, rank_succ, ← ih]
    by_cases same : other = position
    · subst same
      simp [vacate, here]
    · have bit : vacate occupied position other = occupied other := by simp [vacate, same]
      have place : (position < other + 1) ↔ (position < other) := by omega
      simp only [bit, place]
      omega

-- Reading after writing

theorem get_of_vacant
    (free : occupied position = false) (values : List α)
    : get occupied values position = none := by
  simp [get, free]

variable {values : List α}

/-- An occupied position inside the array's width has a value. -/
theorem get_isSome
    (length : values.length = rank occupied width) (inside : position < width)
    (here : occupied position = true)
    : ∃ value, values[rank occupied position]? = some value
        ∧ get occupied values position = some value := by
  have bound : rank occupied position < values.length := by
    rw [length]
    exact rank_lt_rank inside here
  exact ⟨values[rank occupied position], by simp [bound], by simp [get, here, bound]⟩

/-- Overwriting the value of an occupied position changes no other position. -/
theorem get_set
    (length : values.length = rank occupied width) (inside : position < width)
    (here : occupied position = true) (value : α) (other : Nat)
    : get occupied (values.set (rank occupied position) value) other
      = if other = position then some value else get occupied values other := by
  have bound : rank occupied position < values.length := by
    rw [length]
    exact rank_lt_rank inside here
  by_cases same : other = position
  · subst same
    simp [get, here, bound]
  · by_cases there : occupied other = true
    · have different : rank occupied position ≠ rank occupied other :=
        fun ranks => same (rank_injective here there ranks).symm
      simp [get, there, same, List.getElem?_set_ne different]
    · simp [get, there, same]

/-- Occupying a free position at its rank shifts the later values and changes no other. -/
theorem get_insertIdx
    (length : values.length = rank occupied width) (inside : position < width)
    (free : occupied position = false) (value : α) (other : Nat)
    : get (occupy occupied position) (values.insertIdx (rank occupied position) value) other
      = if other = position then some value else get occupied values other := by
  have bound : rank occupied position ≤ values.length := by
    rw [length]
    exact rank_mono occupied (Nat.le_of_lt inside)
  by_cases same : other = position
  · subst same
    simp [get, occupy, rank_occupy free, List.getElem?_insertIdx_self, bound]
  · have bit : occupy occupied position other = occupied other := by simp [occupy, same]
    by_cases there : occupied other = true
    · rcases Nat.lt_or_gt_of_ne same with before | after
      · have lower : rank occupied other < rank occupied position := rank_lt_rank before there
        have place : ¬ position < other := by omega
        simp [get, bit, there, same, rank_occupy free, place, List.getElem?_insertIdx_of_lt lower]
      · have upper : rank occupied position ≤ rank occupied other :=
          rank_mono occupied (Nat.le_of_lt after)
        simp [get, bit, there, same, rank_occupy free, after,
          List.getElem?_insertIdx_of_gt (Nat.lt_succ_of_le upper)]
    · simp [get, bit, there, same]

/-- Vacating a position drops its value, shifts the later ones and changes no other. -/
theorem get_eraseIdx
    (here : occupied position = true) (other : Nat)
    : get (vacate occupied position) (values.eraseIdx (rank occupied position)) other
      = if other = position then none else get occupied values other := by
  by_cases same : other = position
  · subst same
    simp [get, vacate]
  · have bit : vacate occupied position other = occupied other := by simp [vacate, same]
    have ranks := rank_vacate here other
    by_cases there : occupied other = true
    · rcases Nat.lt_or_gt_of_ne same with before | after
      · have lower : rank occupied other < rank occupied position := rank_lt_rank before there
        have place : ¬ position < other := by omega
        simp only [place, if_false, Nat.add_zero] at ranks
        simp [get, bit, there, same, ranks, List.getElem?_eraseIdx_of_lt lower]
      · have upper : rank occupied position < rank occupied other := rank_lt_rank after here
        simp only [after, if_true] at ranks
        have lower : rank occupied position ≤ rank (vacate occupied position) other := by omega
        simp [get, bit, there, same, List.getElem?_eraseIdx_of_ge lower, ranks]
    · simp [get, bit, there, same]

-- The packed list as the values in ascending position

/-- Reading all positions in order gives back the packed list. -/
theorem filterMap_get
    (length : values.length = rank occupied width)
    : (List.range width).filterMap (get occupied values) = values := by
  induction width generalizing values with
  | zero =>
    have empty : values = [] := List.eq_nil_of_length_eq_zero length
    simp [empty]
  | succ width ih =>
    rw [List.range_succ, List.filterMap_append]
    rw [rank_succ] at length
    by_cases last : occupied width = true
    · rw [if_pos last] at length
      obtain ⟨front, value, rfl⟩ : ∃ front value, values = front ++ [value] := by
        have nonempty : values ≠ [] := by
          intro empty
          simp [empty] at length
        exact ⟨values.dropLast, values.getLast nonempty,
          (List.dropLast_append_getLast nonempty).symm⟩
      have frontLength : front.length = rank occupied width := by simpa using length
      have below : (List.range width).filterMap (get occupied (front ++ [value]))
          = (List.range width).filterMap (get occupied front) := by
        apply List.filterMap_congr
        intro position inside
        by_cases here : occupied position = true
        · have lower := rank_lt_rank (List.mem_range.mp inside) here
          rw [← frontLength] at lower
          simp [get, here, List.getElem?_append_left lower]
        · simp [get, here]
      rw [below, ih frontLength]
      simp [get, last, ← frontLength]
    · have sameLength : values.length = rank occupied width := by simpa [last] using length
      rw [ih sameLength]
      simp [get, last]

end Epochs.Lib.SparseArray
