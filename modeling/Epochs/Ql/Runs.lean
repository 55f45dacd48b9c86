import Epochs.Ql.Statements
import Epochs.Store.Start
import Mathlib.Logic.Relation

/-! Runs of the executor: statements one after the other, whether they return or fail, with the
store closed and opened in between.
-/

namespace Epochs.Ql.Engine

open Lib DiskStore

/-- Hash sets and maps that happen to be iterated in the order of insertion. -/
@[reducible]
def insertionOrder : HashSeed := ⟨fun items => items, fun _ => .refl _⟩

/-- One use of a store. -/
inductive Call where
  | statement (stmt : Statement)
  | reopen

variable [Blake3] [HashSeed]

def Call.after (fuel : Nat) (store : DiskStore) : Call → DiskStore
  | .statement stmt => Run.stateOf (executeStatement fuel stmt store)
  | .reopen => Run.stateOf (DiskStore.reopen store)

/-- The states reached by calls that each meet a condition on the state before them. -/
def Reaches (allowed : DiskStore → Call → Prop) : DiskStore → DiskStore → Prop :=
  Relation.ReflTransGen fun before after =>
    ∃ fuel call, allowed before call ∧ after = call.after fuel before

def Along (allowed : DiskStore → Call → Prop) (fuel : Nat) : DiskStore → List Call → Prop
  | _, [] => True
  | store, call :: calls => allowed store call ∧ Along allowed fuel (call.after fuel store) calls

variable {fuel : Nat} {store : DiskStore}

theorem Along.reaches {allowed : DiskStore → Call → Prop} {calls : List Call}
    (along : Along allowed fuel store calls)
    : Reaches allowed store (calls.foldl (Call.after fuel) store) := by
  induction calls generalizing store with
  | nil => exact .refl
  | cons call calls ih =>
    exact .head ⟨fuel, call, along.1, rfl⟩ (ih along.2)

-- The history only grows

theorem executeStatement_grows (fuel : Nat) (stmt : Statement) (store : DiskStore)
    : store.cas.handed <+: (Run.stateOf (executeStatement fuel stmt store)).cas.handed := by
  have leaves := executeStatement_leaves fuel store stmt
  generalize Run.stateOf (executeStatement fuel stmt store) = last at leaves ⊢
  cases leaves with
  | early calls => exact calls.objects.grows
  | refused moves => exact moves.serves.objects.grows
  | @moved name op middle moves =>
    rw [refOp_handed name op middle]
    exact moves.serves.objects.grows
  | @pointed name checkout => exact (setHead_handed name store).symm ▸ List.prefix_rfl

theorem Call.grows (fuel : Nat) (call : Call) (store : DiskStore)
    : store.cas.handed <+: (call.after fuel store).cas.handed := by
  cases call with
  | statement stmt => exact executeStatement_grows fuel stmt store
  | reopen => exact reopen_grows store

/-- What holds at the start and is kept by every call holds in every state reached with payloads
that fit.
-/
theorem Reaches.invariant {allowed : DiskStore → Call → Prop} {holds : DiskStore → Prop}
    {start last : DiskStore} (reaches : Reaches allowed start last)
    (roomy : Traced.Roomy last.cas.handed) (first : Traced.Roomy start.cas.handed → holds start)
    (step : ∀ fuel call store, holds store → allowed store call
      → Traced.Roomy (call.after fuel store).cas.handed → holds (call.after fuel store))
    : holds last := by
  induction reaches with
  | refl => exact first roomy
  | tail earlier call ih =>
    obtain ⟨fuel, call, meets, rfl⟩ := call
    exact step fuel call _ (ih (roomy.of_prefix (call.grows fuel _))) meets roomy

end Epochs.Ql.Engine
