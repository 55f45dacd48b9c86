import Epochs.Ql.PathMatches
import Mathlib.Data.List.Sections
import Mathlib.Data.Set.Card

/-! Clauses of several patterns. The rows of the patterns are put one after the other, so that for
given commits of the variables the rows add up where the rows of a join multiply.
-/

namespace Epochs.Ql.Engine

open Lib DiskStore Run

-- Joins

def Reads (vars : List String) (values : String → Hash) (row : Bindings) : Prop :=
  ∀ name ∈ vars, hashAt row name = some (values name)

instance (vars : List String) (values : String → Hash) : DecidablePred (Reads vars values) :=
  fun row => inferInstanceAs (Decidable (∀ name ∈ vars, hashAt row name = some (values name)))

section Counting

variable {α β : Type} {holds : α → β → Prop} [DecidableRel holds]

end Counting

-- Rows that are put one after the other

section Rows

variable [Blake3] {store : DiskStore} {names : List String} {valid : List Hash → Prop}
  {rows : List Bindings}

omit [Blake3] in
theorem reads_iff {row : Bindings} {hashes : List Hash} (binds : BindsExactly (· ∈ names) row)
    (reads : names.map (hashAt row) = hashes.map some) {vars : List String} {values : String → Hash}
    : Reads vars values row ↔ ∀ name ∈ vars, (name, values name) ∈ names.zip hashes := by
  refine forall₂_congr fun name _ => ?_
  rw [mem_zip_iff]
  constructor
  · intro held
    obtain ⟨place, named⟩ := List.getElem?_of_mem ((binds name).mp (by rw [held]; rfl))
    exact ⟨place, named, (hashAt_of_reads reads named).symm.trans held⟩
  · rintro ⟨place, named, read⟩
    exact (hashAt_of_reads reads named).trans read

end Rows

/-- A pattern of nodes with edges in between, as the first node and each edge with the node after
it.
-/
abbrev PathPattern := NodePattern × List (EdgePattern × NodePattern)

namespace PathPattern

def pattern (path : PathPattern) : Pattern := ⟨pathElements path.1 path.2⟩

def names (path : PathPattern) : List String := namesOf path.1 path.2

end PathPattern

section Clause

variable [Blake3] {store now last : DiskStore} {fuel : Nat} {paths : List PathPattern}
  {founds : List (List Bindings)} {valid : PathPattern → List Hash → Prop}

variable [HashSeed] {context : Hash}

/-- The rows of each pattern of a clause, matched alone. -/
def MatchedAlone (fuel : Nat) (context : Hash) (store : DiskStore) (patterns : List Pattern)
    (founds : List (List Bindings)) : Prop :=
  List.Forall₂ (fun pattern found => ∃ last,
    execMatch fuel ⟨[pattern]⟩ context store = .ok found last) patterns founds

theorem MatchedAlone.unique {patterns : List Pattern} {others : List (List Bindings)}
    (alone : MatchedAlone fuel context store patterns founds)
    (alone' : MatchedAlone fuel context store patterns others)
    : founds = others := by
  induction alone generalizing others with
  | nil =>
    cases alone'
    rfl
  | cons here _ ih =>
    obtain ⟨last, ran⟩ := here
    cases alone' with
    | cons here' rest =>
      obtain ⟨last', ran'⟩ := here'
      cases ran.symm.trans ran'
      rw [ih rest]

end Clause

end Epochs.Ql.Engine

namespace Epochs.Ql.Engine

open Lib DiskStore Run

attribute [local instance] Blake3.linked insertionOrder

end Epochs.Ql.Engine
