import Epochs.Ql.Edges
import Epochs.Ql.Runs

/-! Edges with bounds on their hops. A commit may be met at several depths, which are walked apart,
so that an edge leads to exactly the commits that some number of steps within the bounds leads to.
-/

namespace Epochs

open Lib

/-- No commit is a proper ancestor of itself. -/
def View.Acyclic (view : View) : Prop :=
  ∀ hash, ¬ Relation.TransGen (fun child parent => parent ∈ view.parents child) hash hash

namespace Ql.Engine

open DiskStore

/-- Every entry of a map of children has the commit it stands under as a parent. -/
def ChildrenOf (view : View) (children : AssocMap Hash (List Hash)) : Prop :=
  ∀ hash, ∀ child ∈ (AssocMap.lookup hash children).getD [], hash ∈ view.parents child

variable [Blake3] [HashSeed] {store : DiskStore} {children : AssocMap Hash (List Hash)}
  {edge : EdgePattern} {start : Hash}

/-- The map of children of a store is one. -/
theorem childrenOf_childrenMap (settled : store.Settled) (coherent : store.Coherent) {fuel : Nat}
    {last : DiskStore} (mapped : childrenMap fuel store = .ok children last)
    : ChildrenOf store.view children :=
  fun _ _ member => ((childrenMap_eq_ok settled coherent mapped).mp member).2

omit [Blake3] [HashSeed] in
/-- Neither direction leads back to where it started. -/
theorem Leads.ne {view : View} (acyclic : view.Acyclic) (recorded : ChildrenOf view children)
    {hops : Nat} (some_ : 1 ≤ hops) {hash : Hash} (leads : Leads view children edge hops start hash)
    : hash ≠ start := by
  rintro rfl
  have around := Worklist.transGen_of_steps some_ leads
  unfold stepsOf at around
  split at around
  · exact acyclic _ around
  · refine acyclic _ (Relation.transGen_swap.mp (Relation.TransGen.mono ?_ _ _ around))
    exact fun child parent member => recorded child parent member

omit [HashSeed] in
/-- The commits that can be met along an edge. -/
theorem exists_universe (store : DiskStore) (children : AssocMap Hash (List Hash))
    (edge : EdgePattern) (whole : towardRoot edge.edgeType = true → store.view.Whole start)
    : ∃ universe_ : Finset Hash, start ∈ universe_
        ∧ ∀ hash ∈ universe_,
          ∀ other ∈ stepsOf store.view children (towardRoot edge.edgeType) hash, other ∈ universe_ := by
  classical
  cases toward : towardRoot edge.edgeType with
  | true =>
    obtain ⟨universe_, -, inside, closed⟩ := exists_known_ancestors (whole toward)
    exact ⟨universe_, inside, closed⟩
  | false =>
    refine ⟨insert start (children.flatMap Prod.snd).toFinset, Finset.mem_insert_self _ _, ?_⟩
    intro hash _ child here
    refine Finset.mem_insert_of_mem (List.mem_toFinset.mpr (List.mem_flatMap.mpr ?_))
    rw [stepsOf, if_neg (by decide)] at here
    cases found : AssocMap.lookup hash children with
    | none => simp [found] at here
    | some listed => exact ⟨(hash, listed), AssocMap.mem_of_lookup found, by simpa [found] using here⟩

/-- In a graph without cycles an edge leads from a commit, each once, to exactly the commits that a
walk of some number of steps within its bounds ends at. A walk towards the root takes parents, the
others take the entries of the map of children.
-/
theorem expandEdge_exact (readable : store.Readable) (closed : store.view.Closed)
    (acyclic : store.view.Acyclic) (recorded : ChildrenOf store.view children) {commit : Commit}
    (held : store.view.commit start = some commit) (edge : EdgePattern)
    (least : 1 ≤ (hopBounds edge.multiplier edge.edgeType).1)
    : ∃ budget, ∀ fuel, budget ≤ fuel → ∃ found last,
        expandEdge fuel edge start children store = .ok found last
        ∧ found.Nodup
        ∧ ∀ hash, hash ∈ found
          ↔ ∃ hops, (hopBounds edge.multiplier edge.edgeType).1 ≤ hops
            ∧ hops ≤ (hopBounds edge.multiplier edge.edgeType).2
            ∧ Leads store.view children edge hops start hash := by
  have whole := closed.whole held
  obtain ⟨universe_, inside, within⟩ := exists_universe store children edge fun _ => whole
  refine ⟨1 + universe_.card * ((hopBounds edge.multiplier edge.edgeType).2 + 1), fun fuel enough => ?_⟩
  obtain ⟨found, last, ran⟩ := expandEdge_returns_of readable (fun _ => whole) inside within enough
  refine ⟨found, last, ran, nodup_expandEdge ran, fun hash => ?_⟩
  rw [mem_expandEdge readable (fun _ => whole) ran]
  constructor
  · exact And.right
  · rintro ⟨hops, some_, most, leads⟩
    exact ⟨leads.ne acyclic recorded (le_trans least some_), hops, some_, most, leads⟩

end Ql.Engine
end Epochs

namespace Epochs.Ql.Engine

open Lib DiskStore

attribute [local instance] Blake3.linked insertionOrder

/-- `[:CHILD*1..2]` from the first commit of a repository, which has one child. -/
theorem expandEdge_exact_branchOff
    : let edge : EdgePattern :=
        { direction := .outgoing, edgeType := .child, multiplier := some (.range (some 1) (some 2)) }
      ∃ second last children, branchOff sample = .ok second last
        ∧ (∃ fuel next, childrenMap fuel last = .ok children next)
        ∧ ∃ budget, ∀ fuel, budget ≤ fuel → ∃ found next,
          expandEdge fuel edge sampleStart.2 children last = .ok found next ∧ second ∈ found := by
  intro edge
  obtain ⟨second, last, commit, ran, orderly, differ, held, parents, ⟨first, firstHeld⟩, topic, -,
    others⟩ := branchOff_sample
  have up := View.parents_of_commit held
  rw [parents] at up
  obtain ⟨children, next, mapped, -⟩ := childrenMap_returns orderly.settled orderly.coherent
    (fun _ _ => orderly.whole) le_rfl
  have acyclic : last.view.Acyclic := by
    have edges {child parent : Hash} (edge : parent ∈ last.view.parents child)
        : child = second ∧ parent = sampleStart.2 := by
      by_cases top : child = second
      · rw [top, up] at edge
        exact ⟨top, List.mem_singleton.mp edge⟩
      · rw [others child top] at edge
        cases edge
    intro hash around
    obtain ⟨_, first, -⟩ := Relation.TransGen.head'_iff.mp around
    obtain ⟨_, -, last⟩ := Relation.TransGen.tail'_iff.mp around
    exact differ ((edges first).1.symm.trans (edges last).2)
  obtain ⟨budget, returns⟩ := expandEdge_exact orderly.readable orderly.closed acyclic
    (childrenOf_childrenMap orderly.settled orderly.coherent mapped) firstHeld edge (by decide)
  refine ⟨second, last, children, ran, ⟨_, next, mapped⟩, budget, fun fuel enough => ?_⟩
  obtain ⟨found, end_, expanded, -, members⟩ := returns fuel enough
  refine ⟨found, end_, expanded, (members second).mpr ⟨1, by decide, by decide, sampleStart.2, rfl, ?_⟩⟩
  refine (childrenMap_eq_ok orderly.settled orderly.coherent mapped).mpr
    ⟨⟨"topic", second, topic, .refl⟩, ?_⟩
  rw [up]
  exact List.mem_singleton_self _

end Epochs.Ql.Engine
