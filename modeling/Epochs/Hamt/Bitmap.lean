import Epochs.Hamt.Tree

/-! Bitmaps as sparse arrays: the mask of a branch, the position of its child, and what
setting, adding and removing a child does to the others.
-/

namespace Epochs.PersistentHamt

open Lib SparseArray

-- Masks and counts

theorem bitMask_eq (branch : Fin 32) : bitMask branch = BitVec.twoPow 32 branch := rfl

theorem toNat_bitMask (branch : Fin 32) : (bitMask branch).toNat = 2 ^ branch.val := by
  rw [bitMask_eq, BitVec.toNat_twoPow_of_lt branch.isLt]

theorem getLsbD_bitMask (branch : Fin 32) (position : Nat)
    : (bitMask branch).getLsbD position = (position == branch.val) := by
  rw [bitMask_eq, BitVec.getLsbD_twoPow]
  by_cases same : position = branch.val
  · simp [same]
  · simp [same, Ne.symm same]

theorem getLsbD_bitMask_sub_one (branch : Fin 32) (position : Nat)
    : (bitMask branch - 1).getLsbD position = decide (position < branch.val) := by
  have minus : (bitMask branch - 1).toNat = 2 ^ branch.val - 1 := by
    rw [BitVec.toNat_sub_of_le]
    · simp [toNat_bitMask]
    · rw [BitVec.le_def, toNat_bitMask]
      exact Nat.one_le_two_pow
  rw [BitVec.getLsbD, minus, Nat.testBit_two_pow_sub_one]

theorem and_bitMask_eq_zero (bitmap : BitVec 32) (branch : Fin 32)
    : bitmap &&& bitMask branch = 0 ↔ bitmap.getLsbD branch = false := by
  rw [bitMask_eq, BitVec.and_twoPow]
  cases bitmap.getLsbD branch with
  | false => simp
  | true =>
    simp only [if_true, Bool.true_eq_false, iff_false]
    intro zero
    have := congrArg BitVec.toNat zero
    rw [BitVec.toNat_twoPow_of_lt branch.isLt] at this
    exact absurd this (by simp)

theorem countOnes_eq (bitmap : BitVec 32)
    : countOnes bitmap = rank bitmap.getLsbD 32 := rfl

theorem childIndex_eq (bitmap : BitVec 32) (branch : Fin 32)
    : childIndex bitmap branch = rank bitmap.getLsbD branch := by
  have bits : (bitmap &&& (bitMask branch - 1)).getLsbD
      = fun other => bitmap.getLsbD other && decide (other < branch.val) := by
    funext other
    rw [BitVec.getLsbD_and, getLsbD_bitMask_sub_one]
  rw [childIndex, countOnes_eq, bits, rank_below _ (Nat.le_of_lt branch.isLt)]

theorem getLsbD_or_bitMask (bitmap : BitVec 32) (branch : Fin 32)
    : (bitmap ||| bitMask branch).getLsbD = occupy bitmap.getLsbD branch := by
  funext position
  simp [occupy, getLsbD_bitMask]

theorem getLsbD_and_not_bitMask (bitmap : BitVec 32) (branch : Fin 32)
    : (bitmap &&& ~~~ bitMask branch).getLsbD = vacate bitmap.getLsbD branch := by
  funext position
  rw [BitVec.getLsbD_and, BitVec.getLsbD_not, getLsbD_bitMask, vacate]
  by_cases inside : position < 32
  · simp [inside, bne]
  · rw [BitVec.getLsbD_of_ge bitmap position (by omega)]
    simp

-- Children by branch

def childAt (bitmap : BitVec 32) (children : List Hash) (branch : Fin 32) : Option Hash :=
  SparseArray.get bitmap.getLsbD children branch

def Counted (bitmap : BitVec 32) (children : List Hash) : Prop :=
  children.length = countOnes bitmap

variable {bitmap : BitVec 32} {children : List Hash} {branch : Fin 32}

theorem Counted.length_le (counted : Counted bitmap children) : children.length ≤ 32 := by
  rw [counted, countOnes]
  exact Nat.le_trans List.countP_le_length (by simp)

theorem Counted.fits (counted : Counted bitmap children)
    : (HamtNode.bitmap bitmap children).Fits :=
  Nat.lt_of_le_of_lt counted.length_le (by decide)

theorem childAt_of_vacant (free : bitmap.getLsbD branch = false)
    : childAt bitmap children branch = none :=
  get_of_vacant free children

/-- An occupied branch has a child, at the branch's position. -/
theorem Counted.child (counted : Counted bitmap children) (here : bitmap.getLsbD branch = true)
    : ∃ child, children[childIndex bitmap branch]? = some child
        ∧ childAt bitmap children branch = some child := by
  rw [childIndex_eq]
  exact get_isSome counted branch.isLt here

theorem Counted.childIndex_lt (counted : Counted bitmap children)
    (here : bitmap.getLsbD branch = true)
    : childIndex bitmap branch < children.length := by
  obtain ⟨child, found, -⟩ := counted.child here
  exact (List.getElem?_eq_some_iff.mp found).1

theorem Counted.childIndex_le (counted : Counted bitmap children)
    : childIndex bitmap branch ≤ children.length := by
  rw [childIndex_eq, counted]
  exact rank_mono _ (Nat.le_of_lt branch.isLt)

theorem Counted.set (counted : Counted bitmap children) (position : Nat) (child : Hash)
    : Counted bitmap (children.set position child) := by
  rw [Counted, List.length_set]
  exact counted

theorem childAt_set (counted : Counted bitmap children) (here : bitmap.getLsbD branch = true)
    (child : Hash) (other : Fin 32)
    : childAt bitmap (children.set (childIndex bitmap branch) child) other
      = if other = branch then some child else childAt bitmap children other := by
  rw [childIndex_eq]
  simpa [childAt, Fin.ext_iff] using get_set counted branch.isLt here child other

theorem Counted.insert (counted : Counted bitmap children) (free : bitmap.getLsbD branch = false)
    (child : Hash)
    : Counted (bitmap ||| bitMask branch)
        (children.insertIdx (childIndex bitmap branch) child) := by
  rw [Counted, List.length_insertIdx_of_le_length counted.childIndex_le, countOnes_eq,
    getLsbD_or_bitMask, rank_occupy free, if_pos branch.isLt, counted, countOnes_eq]

theorem childAt_insert (counted : Counted bitmap children) (free : bitmap.getLsbD branch = false)
    (child : Hash) (other : Fin 32)
    : childAt (bitmap ||| bitMask branch)
        (children.insertIdx (childIndex bitmap branch) child) other
      = if other = branch then some child else childAt bitmap children other := by
  rw [childIndex_eq, childAt, getLsbD_or_bitMask]
  simpa [childAt, Fin.ext_iff] using get_insertIdx counted branch.isLt free child other

theorem Counted.remove (counted : Counted bitmap children) (here : bitmap.getLsbD branch = true)
    : Counted (bitmap &&& ~~~ bitMask branch)
        (children.eraseIdx (childIndex bitmap branch)) := by
  have ranks := rank_vacate here 32
  rw [if_pos branch.isLt] at ranks
  rw [Counted, List.length_eraseIdx_of_lt (counted.childIndex_lt here), countOnes_eq,
    getLsbD_and_not_bitMask, counted, countOnes_eq]
  omega

theorem childAt_remove (here : bitmap.getLsbD branch = true) (other : Fin 32)
    : childAt (bitmap &&& ~~~ bitMask branch)
        (children.eraseIdx (childIndex bitmap branch)) other
      = if other = branch then none else childAt bitmap children other := by
  rw [childIndex_eq, childAt, getLsbD_and_not_bitMask]
  simpa [childAt, Fin.ext_iff] using get_eraseIdx here other

-- Nodes with one and two children

theorem childIndex_zero (branch : Fin 32) : childIndex 0#32 branch = 0 := by
  rw [childIndex_eq]
  simp [rank]

theorem counted_single (branch : Fin 32) (child : Hash) : Counted (bitMask branch) [child] := by
  have added := @Counted.insert 0#32 [] branch rfl (by simp) child
  simpa [childIndex_zero] using added

theorem childAt_single (branch other : Fin 32) (child : Hash)
    : childAt (bitMask branch) [child] other = if other = branch then some child else none := by
  have added := @childAt_insert 0#32 [] branch rfl (by simp) child other
  have vacant : childAt 0#32 [] other = none := childAt_of_vacant (by simp)
  simpa [childIndex_zero, vacant] using added

/-- The second of two branches goes behind or before the first, by their order. -/
theorem childIndex_single (left right : Fin 32)
    : childIndex (bitMask left) right = if left < right then 1 else 0 := by
  have bits : (bitMask left).getLsbD = occupy (fun _ => false) left := by
    funext position
    simp [occupy, getLsbD_bitMask]
  have empty : rank (fun _ => false) right = 0 := by simp [rank]
  rw [childIndex_eq, bits, rank_occupy rfl, empty, Nat.zero_add]
  rfl

def pairOf (left right : Fin 32) (leftChild rightChild : Hash) : List Hash :=
  if left < right then [leftChild, rightChild] else [rightChild, leftChild]

theorem pairOf_eq_insert (left right : Fin 32) (leftChild rightChild : Hash)
    : pairOf left right leftChild rightChild
      = [leftChild].insertIdx (childIndex (bitMask left) right) rightChild := by
  rw [childIndex_single, pairOf]
  split <;> simp

variable {left right : Fin 32}

theorem vacant_single (different : left ≠ right)
    : (bitMask left).getLsbD right = false := by
  rw [getLsbD_bitMask, beq_eq_false_iff_ne]
  exact fun same => different (Fin.ext same.symm)

theorem counted_pair (different : left ≠ right) (leftChild rightChild : Hash)
    : Counted (bitMask left ||| bitMask right) (pairOf left right leftChild rightChild) := by
  rw [pairOf_eq_insert]
  exact (counted_single left leftChild).insert (vacant_single different) rightChild

theorem childAt_pair (different : left ≠ right)
    (leftChild rightChild : Hash) (other : Fin 32)
    : childAt (bitMask left ||| bitMask right) (pairOf left right leftChild rightChild) other
      = if other = right then some rightChild
        else if other = left then some leftChild else none := by
  rw [pairOf_eq_insert,
    childAt_insert (counted_single left leftChild) (vacant_single different), childAt_single]

/-- Visiting the branches in order visits the children in order. -/
theorem Counted.filterMap_childAt (counted : Counted bitmap children)
    : (List.finRange 32).filterMap (childAt bitmap children) = children := by
  have packed := filterMap_get counted
  rw [← List.map_coe_finRange_eq_range, List.filterMap_map] at packed
  exact packed

end Epochs.PersistentHamt
