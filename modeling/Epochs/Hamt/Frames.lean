import Epochs.Hamt.Tree

/-! What the tree operations keep. They reach the store through its reads and writes only, so
a relation that composes and that every read and write keeps is kept by each operation; and
what a reader returned it returns again wherever the store holds at least the same objects.
-/

namespace Epochs.PersistentHamt

open Lib Run

variable {σ : Type} [CasBackend σ]

-- Readers

section Reads

variable {kept : ∀ {ε α : Type}, Run ε (Traced σ) α → Prop} (closed : Closed kept)
  (reads : ∀ hash, kept (Traced.getRecord hash : Run EpochsError (Traced σ) (RecordType × Bytes)))
include closed reads

theorem loadNode_kept (hash : Hash)
    : kept (loadNode hash : Run EpochsError (Traced σ) HamtNode) :=
  closed.bind (reads hash) fun _ => closed.ofExcept _

theorem collectEntries_kept (fuel : Nat) (nodeHash : Hash) (out : List (Bytes × Bytes))
    : kept (collectEntries fuel nodeHash out : Run EpochsError (Traced σ) _) := by
  induction fuel generalizing nodeHash out with
  | zero => exact closed.throw _
  | succ fuel ih =>
    refine closed.bind (loadNode_kept closed reads nodeHash) fun node => ?_
    cases node with
    | leaf key value => exact closed.pure _
    | bitmap bitmap children =>
      exact closed.foldlM (fun out child => ih child out) children out

theorem entries_kept (fuel : Nat) (root : Option Hash)
    : kept (entries fuel root : Run EpochsError (Traced σ) _) := by
  cases root with
  | none => exact closed.pure _
  | some rootHash => exact collectEntries_kept closed reads fuel rootHash []

end Reads

-- Relations kept by readers and writers

section Within

variable {relation : Traced σ → Traced σ → Prop} (frame : Frame relation)
  (reads : ∀ hash, Run.Within relation
    (Traced.getRecord hash : Run EpochsError (Traced σ) (RecordType × Bytes)))
  (writes : ∀ node : HamtNode, Run.Within relation
    (Traced.put node.recordType node.encode : Run EpochsError (Traced σ) Hash))
include frame reads writes

theorem removeInternal_within (fuel : Nat) (nodeHash : Hash) (key : Bytes) (keyHash : Hash)
    (depth : Nat)
    : Within relation
        (removeInternal fuel nodeHash key keyHash depth : Run EpochsError (Traced σ) _) := by
  induction fuel generalizing nodeHash depth with
  | zero => exact .throw frame _
  | succ fuel ih =>
    refine .bind frame (loadNode_kept (.within frame) reads nodeHash) fun node => ?_
    cases node with
    | leaf k v =>
      simp only
      split <;> exact .pure frame _
    | bitmap bitmap children =>
      simp only
      split
      · exact .pure frame _
      · refine .bind frame (.index frame _ _) fun child =>
          .bind frame (ih child (depth + 1)) fun removed => ?_
        cases removed with
        | none =>
          refine .bind frame (.removeAt frame _ _) fun newChildren => ?_
          split
          · exact .pure frame _
          · exact .bind frame (writes (.bitmap _ _)) fun newHash => .pure frame _
        | some newChild =>
          exact .bind frame (.setAt frame _ _ _) fun newChildren =>
            .bind frame (writes (.bitmap _ _)) fun newHash => .pure frame _

variable [Blake3]

theorem insertInternal_within (fuel : Nat)
    : (∀ nodeHash key value keyHash depth,
        Within relation
          (insertInternal fuel nodeHash key value keyHash depth : Run EpochsError (Traced σ) _))
      ∧ (∀ existingKey existingVal existingKeyHash newKey newVal newKeyHash depth,
          Within relation
            (expandLeafCollision fuel existingKey existingVal existingKeyHash newKey newVal
              newKeyHash depth : Run EpochsError (Traced σ) _)) := by
  induction fuel with
  | zero =>
    refine ⟨fun _ _ _ _ _ => ?_, fun _ _ _ _ _ _ _ => ?_⟩
    · unfold insertInternal
      exact .throw frame _
    · unfold expandLeafCollision
      exact .throw frame _
  | succ fuel ih =>
    refine ⟨fun nodeHash key value keyHash depth => ?_,
      fun existingKey existingVal existingKeyHash newKey newVal newKeyHash depth => ?_⟩
    · cases nodeHash with
      | none =>
        unfold insertInternal
        exact writes (.leaf _ _)
      | some hash =>
        unfold insertInternal
        refine .bind frame (loadNode_kept (.within frame) reads hash) fun node => ?_
        cases node with
        | leaf existingKey existingVal =>
          simp only
          split
          · exact writes (.leaf _ _)
          · exact ih.2 _ _ _ _ _ _ _
        | bitmap bitmap children =>
          simp only
          split
          · exact .bind frame (.index frame _ _) fun child =>
              .bind frame (ih.1 _ _ _ _ _) fun newChild =>
              .bind frame (.setAt frame _ _ _) fun newChildren => writes (.bitmap _ _)
          · exact .bind frame (writes (.leaf _ _)) fun newLeaf =>
              .bind frame (.insertAt frame _ _ _) fun newChildren => writes (.bitmap _ _)
    · unfold expandLeafCollision
      simp only
      split
      · exact .bind frame (writes (.leaf _ _)) fun oldLeaf => ih.1 _ _ _ _ _
      · exact .bind frame (writes (.leaf _ _)) fun oldLeaf =>
          .bind frame (writes (.leaf _ _)) fun newLeaf => writes (.bitmap _ _)

theorem insert_within (fuel : Nat) (root : Option Hash) (key value : Bytes)
    : Within relation (insert fuel root key value : Run EpochsError (Traced σ) _) :=
  (insertInternal_within frame reads writes fuel).1 _ _ _ _ _

theorem remove_within (fuel : Nat) (root : Option Hash) (key : Bytes)
    : Within relation (remove fuel root key : Run EpochsError (Traced σ) _) := by
  cases root with
  | none => exact .pure frame _
  | some rootHash => exact removeInternal_within frame reads writes fuel _ _ _ _

end Within

-- Readers over a store that holds more

section Follows

variable [Blake3] [LawfulCas σ]

/-- Two valid stores, the second of which holds everything the first holds. -/
structure Sees (before after : Traced σ) : Prop where
  valid : LawfulCas.Valid before.store
  stillValid : LawfulCas.Valid after.store
  more : before.view.Extends after.view

theorem getRecord_follows (hash : Hash)
    : Follows (@Sees σ _ _ _) (Traced.getRecord hash) (Traced.getRecord hash) := by
  intro before after record last sees read
  obtain ⟨next, observes, outcome⟩ := Traced.getRecord_spec sees.valid hash
  obtain ⟨next', observes', outcome'⟩ := Traced.getRecord_spec sees.stillValid hash
  cases found : before.view hash with
  | none =>
    simp only [found] at outcome
    obtain ⟨error, failed⟩ := outcome
    simp [failed] at read
  | some held =>
    simp only [found] at outcome
    simp only [sees.more hash held found] at outcome'
    rw [outcome] at read
    cases read
    refine ⟨next', outcome', observes.valid sees.valid, observes'.valid sees.stillValid, ?_⟩
    rw [observes.view sees.valid, observes'.view sees.stillValid]
    exact sees.more

omit [Blake3] [LawfulCas σ] in
/-- More fuel changes nothing about a listing that returned. -/
theorem collectEntries_fuel {fuel larger : Nat} (enough : fuel ≤ larger) (nodeHash : Hash)
    (out : List (Bytes × Bytes))
    : Follows Eq (collectEntries fuel nodeHash out : Run EpochsError (Traced σ) _)
        (collectEntries larger nodeHash out) := by
  induction fuel generalizing larger nodeHash out with
  | zero => exact .throw _ _
  | succ fuel ih =>
    obtain ⟨larger, rfl⟩ := Nat.exists_eq_add_of_le' (Nat.le_of_add_left_le enough)
    refine .bind (.same _) fun node => ?_
    cases node with
    | leaf key value => exact .pure _
    | bitmap bitmap children =>
      exact .foldlM (fun out child => ih (Nat.le_of_succ_le_succ enough) child out) children out

end Follows

-- Larger budgets

section Budgets

theorem removeInternal_more (fuel : Nat) (nodeHash : Hash) (key : Bytes) (keyHash : Hash)
    (depth : Nat)
    : Follows Eq
        (removeInternal fuel nodeHash key keyHash depth : Run EpochsError (Traced σ) _)
        (removeInternal (fuel + 1) nodeHash key keyHash depth) := by
  induction fuel generalizing nodeHash depth with
  | zero => exact .throw _ _
  | succ fuel ih =>
    unfold removeInternal
    refine .bind (.same _) fun node => ?_
    cases node with
    | leaf k v => exact .same _
    | bitmap bitmap children =>
      simp only
      split
      · exact .same _
      · exact .bind (.same _) fun child =>
          .bind (ih child (depth + 1)) fun removed => .same _

variable [Blake3]

theorem insertInternal_more (fuel : Nat)
    : (∀ nodeHash key value keyHash depth,
        Follows Eq
          (insertInternal fuel nodeHash key value keyHash depth : Run EpochsError (Traced σ) _)
          (insertInternal (fuel + 1) nodeHash key value keyHash depth))
      ∧ (∀ existingKey existingVal existingKeyHash newKey newVal newKeyHash depth,
          Follows Eq
            (expandLeafCollision fuel existingKey existingVal existingKeyHash newKey newVal
              newKeyHash depth : Run EpochsError (Traced σ) _)
            (expandLeafCollision (fuel + 1) existingKey existingVal existingKeyHash newKey newVal
              newKeyHash depth)) := by
  induction fuel with
  | zero =>
    refine ⟨fun _ _ _ _ _ => ?_, fun _ _ _ _ _ _ _ => ?_⟩
    · rw [insertInternal]
      exact .throw _ _
    · rw [expandLeafCollision]
      exact .throw _ _
  | succ fuel ih =>
    refine ⟨fun nodeHash key value keyHash depth => ?_,
      fun existingKey existingVal existingKeyHash newKey newVal newKeyHash depth => ?_⟩
    · cases nodeHash with
      | none =>
        unfold insertInternal
        exact .same _
      | some hash =>
        unfold insertInternal
        refine .bind (.same _) fun node => ?_
        cases node with
        | leaf existingKey existingVal =>
          simp only
          split
          · exact .same _
          · exact ih.2 _ _ _ _ _ _ _
        | bitmap bitmap children =>
          simp only
          split
          · exact .bind (.same _) fun child => .bind (ih.1 _ _ _ _ _) fun _ => .same _
          · exact .same _
    · unfold expandLeafCollision
      simp only
      split
      · exact .bind (.same _) fun _ => ih.1 _ _ _ _ _
      · exact .same _

end Budgets
end Epochs.PersistentHamt
