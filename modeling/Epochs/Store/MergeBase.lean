import Epochs.Lib.Distances
import Epochs.Store.Histories

/-! The common ancestor of two commits that a merge starts from. It is the nearest to the second
commit: the first, in the order of the parents, of the earliest generation above the second
commit that has an ancestor of the first one. Another common ancestor may still descend from it,
unless a search from the second commit meets every commit before its ancestors.
-/

namespace Epochs

open Lib Worklist

namespace View

variable (view : View) (first second : Hash)

def Common (hash : Hash) : Prop := view.Reaches first hash ∧ view.Reaches second hash

def Best (hash : Hash) : Prop :=
  view.Common first second hash
  ∧ ∀ other, view.Common first second other → other ≠ hash → ¬ view.Reaches other hash

/-- The first ancestor of the first commit in the earliest generation above the second commit
that has one. A generation lists the parents of the one before in their order.
-/
def Nearest (hash : Hash) : Prop :=
  Worklist.Nearest view.parents (view.Reaches first) [second] hash

variable {view first second} in
theorem Nearest.common {hash : Hash} (nearest : view.Nearest first second hash)
    : view.Common first second hash := by
  obtain ⟨count, found, -⟩ := nearest
  refine ⟨found.mem.2, ?_⟩
  obtain ⟨start, here, reaches⟩ := reaches_of_mem_generation found.mem.1
  exact List.mem_singleton.mp here ▸ reaches

/-- A search from a commit meets one hash before another. -/
def Before (hash other : Hash) : Prop :=
  hash ≠ other ∧ Worklist.Nearest view.parents (fun met => met = hash ∨ met = other) [second] hash

variable {view first second} in
/-- The nearest common ancestor is met before the others, and no other is met before it. -/
theorem Nearest.before_iff {hash other : Hash} (nearest : view.Nearest first second hash)
    (common : view.Common first second other)
    : (hash ≠ other → view.Before second hash other) ∧ ¬ view.Before second other hash := by
  have either : ∀ met, met = hash ∨ met = other → view.Reaches first met := by
    rintro met (rfl | rfl)
    · exact nearest.common.1
    · exact common.1
  have met := Worklist.Nearest.of_fewer nearest either (.inl rfl)
  refine ⟨fun apart => ⟨apart, met⟩, fun ⟨apart, also⟩ => apart (also.unique ?_)⟩
  simpa only [or_comm] using met

end View

namespace DiskStore

variable [Blake3] {store : DiskStore}

-- The search

omit [Blake3] in
theorem enqueueNew_eq (queue visited hashes : List Hash)
    : enqueueNew queue visited hashes = enqueue queue visited hashes := by
  induction hashes generalizing queue visited with
  | nil => rfl
  | cons hash rest ih =>
    rw [enqueueNew, enqueue]
    split
    · exact ih queue visited
    · exact ih _ _

/-- A search from whole histories is a search over the graph of commits. -/
theorem searchParents_eq (readable : store.Readable) (targets : List Hash) (fuel : Nat)
    {queue visited : List Hash} (whole : ∀ hash ∈ queue, store.view.Whole hash)
    : ∃ next, Looks store next
        ∧ searchParents targets fuel queue visited store
          = match search store.view.parents (· ∈ targets) fuel queue visited with
            | some found => .ok found next
            | none => .error .fuel next := by
  induction fuel generalizing store queue visited with
  | zero => cases queue <;> exact ⟨store, looks_frame.refl store, rfl⟩
  | succ fuel ih =>
    cases queue with
    | nil => exact ⟨store, looks_frame.refl store, rfl⟩
    | cons current queue =>
      rw [searchParents, search]
      split
      · exact ⟨store, looks_frame.refl store, rfl⟩
      · have here := whole current List.mem_cons_self
        obtain ⟨commit, held⟩ := here.commit
        obtain ⟨middle, loaded, looks⟩ := loadCommit_of_held readable held
        have view := looks.view readable
        have edges : store.view.parents current = commit.parents :=
          View.parents_of_commit held
        have queued : ∀ hash ∈ (enqueue queue visited commit.parents).1,
            middle.view.Whole hash := by
          obtain ⟨new, added, -, -, members⟩ :=
            enqueue_spec queue visited commit.parents
          rw [added, view]
          intro hash member
          rcases List.mem_append.mp member with old | inNew
          · exact whole hash (List.mem_cons_of_mem _ old)
          · exact here.of_parent (edges ▸ ((members hash).mp inNew).1)
        obtain ⟨next, further, ran⟩ := @ih middle (looks.readable readable) _
          (enqueue queue visited commit.parents).2 queued
        refine ⟨next, looks_frame.trans looks further, ?_⟩
        rw [Run.bind_of_ok loaded, enqueueNew_eq, edges, ← view]
        exact ran

/-- The commits that are stored, of which a walk queues each at most once. -/
theorem search_returns {start : Hash} (whole : store.view.Whole start) (targets : List Hash)
    {fuel : Nat} (enough : 1 + store.known.card ≤ fuel)
    : ∃ found, search store.view.parents (· ∈ targets) fuel [start] [start]
        = some found := by
  obtain ⟨universe_, known, inside, closed⟩ := exists_known_ancestors whole
  have fewer : (universe_ \ [start].toFinset).card ≤ store.known.card :=
    Finset.card_le_card (Finset.sdiff_subset.trans known)
  obtain ⟨found, swept⟩ := @sweep_returns _ store.view.parents _ fuel [start] [start] universe_
    (sweeping_start start) (by simpa using inside) closed (by rw [List.length_singleton]; omega)
  exact search_of_sweep swept

/-- From two whole histories a common ancestor is found exactly if there is one, and then it is
the nearest to the second commit.
-/
theorem mergeBase_spec (readable : store.Readable) {first second : Hash}
    (wholeFirst : store.view.Whole first) (wholeSecond : store.view.Whole second) {fuel : Nat}
    (enough : store.budget + store.known.card ≤ fuel)
    : ∃ found next, mergeBase fuel first second store = .ok found next
        ∧ (found = none → ∀ hash, ¬ store.view.Common first second hash)
        ∧ ∀ hash, found = some hash
          → store.view.Common first second hash ∧ store.view.Nearest first second hash := by
  by_cases same : first = second
  · subst same
    refine ⟨some first, store, by rw [mergeBase, if_pos rfl]; rfl, by simp, ?_⟩
    rintro _ ⟨⟩
    exact ⟨⟨.refl, .refl⟩, nearest_of_first (first_cons .refl)⟩
  · have positive : 1 ≤ store.budget := Nat.le_add_right 1 _
    obtain ⟨ancestors, middle, collected, looks, -, members⟩ :=
      collectAncestors_spec readable wholeFirst (by omega : store.budget ≤ fuel)
    have view := looks.view readable
    obtain ⟨found, searched⟩ := search_returns wholeSecond ancestors
      (by omega : 1 + store.known.card ≤ fuel)
    obtain ⟨next, -, ran⟩ := @searchParents_eq _ middle (looks.readable readable) ancestors fuel
      [second] [second] (by rw [view]; simpa using wholeSecond)
    rw [view, searched] at ran
    refine ⟨found, next, ?_, ?_, ?_⟩
    · rw [mergeBase, if_neg same, Run.bind_of_ok collected]
      exact ran
    · rintro rfl hash ⟨left, right⟩
      exact not_target_of_search searched (sweeping_start second)
        (fun node marked unqueued => absurd marked unqueued) (List.mem_singleton_self second) right
        ((members hash).mpr left)
    · rintro hash rfl
      have nearest := nearest_of_search searched
      rw [show (· ∈ ancestors) = store.view.Reaches first from
        funext fun hash => propext (members hash)] at nearest
      exact ⟨View.Nearest.common nearest, nearest⟩

/-- Of two commits of a store whose parents are commits a common ancestor is found
exactly if there is one, and then none is fewer parents away from the second commit.
-/
theorem mergeBase_distance (readable : store.Readable) (closed : store.view.Closed)
    {first second : Hash} {firstCommit secondCommit : Commit}
    (firstHeld : store.view.commit first = some firstCommit)
    (secondHeld : store.view.commit second = some secondCommit)
    : ∃ budget, ∀ fuel, budget ≤ fuel → ∃ found next,
        mergeBase fuel first second store = .ok found next
        ∧ (found.isSome ↔ ∃ hash, store.view.Common first second hash)
        ∧ ∀ hash, found = some hash
          → store.view.Common first second hash
            ∧ ∃ distance, Worklist.Distance store.view.parents second distance hash
              ∧ ∀ other far, store.view.Common first second other
                → Worklist.Distance store.view.parents second far other
                → distance ≤ far := by
  refine ⟨store.budget + store.known.card, fun fuel enough => ?_⟩
  obtain ⟨found, next, ran, nothing, something⟩ :=
    mergeBase_spec readable (closed.whole firstHeld) (closed.whole secondHeld) enough
  refine ⟨found, next, ran, ⟨fun found_ => ?_, fun ⟨hash, common⟩ => ?_⟩, fun hash is => ?_⟩
  · obtain ⟨hash, is⟩ := Option.isSome_iff_exists.mp found_
    exact ⟨hash, (something hash is).1⟩
  · cases found with
    | none => exact absurd common (nothing rfl hash)
    | some hash => rfl
  · obtain ⟨common, count, nearest, earlier⟩ := something hash is
    have nearer {other : Hash} {far : Nat} (also : store.view.Common first second other)
        (steps : Worklist.Steps store.view.parents far second other) : count ≤ far := by
      by_contra less
      exact earlier far (by omega) other (Worklist.mem_generation_iff.mpr steps) also.1
    refine ⟨common, count, ⟨Worklist.mem_generation_iff.mp nearest.mem.1, fun far => nearer common⟩,
      fun other far also distance => nearer also distance.1⟩

theorem mergeBase_nearest (readable : store.Readable) {first second : Hash}
    (wholeFirst : store.view.Whole first) (wholeSecond : store.view.Whole second) {fuel : Nat}
    (enough : store.budget + store.known.card ≤ fuel)
    : ∃ found next, mergeBase fuel first second store = .ok found next
        ∧ (found = none ↔ ∀ hash, ¬ store.view.Common first second hash)
        ∧ ∀ hash, found = some hash → store.view.Nearest first second hash := by
  obtain ⟨found, next, ran, nothing, something⟩ :=
    mergeBase_spec readable wholeFirst wholeSecond enough
  refine ⟨found, next, ran, ⟨nothing, fun none => ?_⟩, fun hash is => (something hash is).2⟩
  cases found with
  | none => rfl
  | some hash => exact absurd (something hash rfl).1 (none hash)

/-- The common ancestor of two whole histories that is found, none exactly if there is none, is one
that no other common ancestor descends from exactly if a search from the second commit meets a
common ancestor before each that another one descends from. It is so whatever the first
commit is exactly if the search meets every commit before its proper ancestors.
-/
theorem mergeBase_best_iff (readable : store.Readable) {second : Hash}
    (wholeSecond : store.view.Whole second)
    : (∀ first, store.view.Whole first → ∃ budget, ∀ fuel, budget ≤ fuel → ∃ found next,
        mergeBase fuel first second store = .ok found next
        ∧ (found = none ↔ ∀ hash, ¬ store.view.Common first second hash)
        ∧ ((∀ hash, found = some hash → store.view.Best first second hash)
          ↔ ∀ hash other, store.view.Common first second hash
            → store.view.Common first second other → other ≠ hash → store.view.Reaches other hash
            → ∃ earlier, store.view.Common first second earlier
              ∧ store.view.Before second earlier hash))
      ∧ ((∀ first, store.view.Whole first → ∃ budget, ∀ fuel, budget ≤ fuel → ∃ found next,
          mergeBase fuel first second store = .ok found next
          ∧ (found = none ↔ ∀ hash, ¬ store.view.Common first second hash)
          ∧ ∀ hash, found = some hash → store.view.Best first second hash)
        ↔ ∀ hash other, store.view.Reaches second other → store.view.Reaches other hash
          → other ≠ hash → store.view.Before second other hash) := by
  refine ⟨fun first wholeFirst => ⟨store.budget + store.known.card, fun fuel enough => ?_⟩,
    fun best hash other below above apart => ?_,
    fun order first wholeFirst => ⟨store.budget + store.known.card, fun fuel enough => ?_⟩⟩
  · obtain ⟨found, next, ran, nothing, nearest⟩ :=
      mergeBase_nearest readable wholeFirst wholeSecond enough
    refine ⟨found, next, ran, nothing, fun best hash other common common' apart above => ?_,
      fun met hash is => ⟨(nearest hash is).common, fun other common apart above => ?_⟩⟩
    · cases found with
      | none => exact absurd common (nothing.mp rfl hash)
      | some base =>
        have near := nearest base rfl
        refine ⟨base, near.common, (near.before_iff common).1 ?_⟩
        rintro rfl
        exact (best base rfl).2 other common' apart above
    · obtain ⟨earlier, also, before⟩ := met hash other (nearest hash is).common common apart above
      exact ((nearest hash is).before_iff also).2 before
  · -- the base of a commit and one that reaches it can only be the former
    have whole : store.view.Whole other := fun hash reaches => wholeSecond hash (below.trans reaches)
    obtain ⟨budget, found⟩ := best other whole
    obtain ⟨base, next, ran, nothing, isBest⟩ := found (max budget _) (Nat.le_max_left _ _)
    obtain ⟨base', next', ran', -, nearest⟩ :=
      mergeBase_nearest readable whole wholeSecond (Nat.le_max_right budget _)
    cases ran.symm.trans ran'
    cases base with
    | none => exact absurd ⟨.refl, below⟩ (nothing.mp rfl other)
    | some base =>
      have near := nearest base rfl
      have same : other = base := by
        by_contra differ
        exact (isBest base rfl).2 other ⟨.refl, below⟩ differ near.common.1
      subst same
      exact (near.before_iff ⟨above, below.trans above⟩).1 apart
  · obtain ⟨found, next, ran, nothing, nearest⟩ :=
      mergeBase_nearest readable wholeFirst wholeSecond enough
    refine ⟨found, next, ran, nothing, fun hash is => ⟨(nearest hash is).common, ?_⟩⟩
    intro other common apart above
    exact ((nearest hash is).before_iff common).2 (order hash other common.2 above apart)

end DiskStore

-- A repository just made

namespace DiskStore

attribute [local instance] Blake3.linked

/-- The first commit of a repository is the base of itself and a commit over it. -/
theorem mergeBase_best_iff_branchOff
    : ∃ second last, branchOff sample = .ok second last ∧ second ≠ sampleStart.2
        ∧ ∃ budget, ∀ fuel, budget ≤ fuel → ∃ found next,
          mergeBase fuel sampleStart.2 second last = .ok (some found) next
          ∧ last.view.Best sampleStart.2 second found := by
  obtain ⟨second, last, ran, branched⟩ := branchOff_branched
  obtain ⟨commit, held, -⟩ := branched.held
  obtain ⟨firstCommit, firstHeld, -⟩ := branched.first
  have closed := branched.orderly.closed
  have edge : sampleStart.2 ∈ last.view.parents second := by
    rw [branched.edge]
    exact List.mem_singleton_self _
  refine ⟨second, last, ran, branched.apart, ?_⟩
  obtain ⟨budget, returns⟩ := (mergeBase_best_iff branched.orderly.readable (closed.whole held)).2.mpr
    (fun hash other below above apart => by
      rcases branched.eq_of_reaches_second below with same | same
      · rw [same] at apart ⊢
        exact ⟨apart, nearest_of_first (first_cons (.inl rfl))⟩
      · rw [same] at above apart
        exact absurd (branched.eq_of_reaches_first above).symm apart)
    sampleStart.2 (closed.whole firstHeld)
  refine ⟨budget, fun fuel enough => ?_⟩
  obtain ⟨found, next, merged, nothing, best⟩ := returns fuel enough
  cases found with
  | none => exact absurd ⟨.refl, .single edge⟩ (nothing.mp rfl sampleStart.2)
  | some base => exact ⟨base, next, merged, best base rfl⟩

/-- The first commit of a repository and one over it. -/
theorem mergeBase_distance_branchOff
    : ∃ second last, branchOff sample = .ok second last
        ∧ ∃ budget, ∀ fuel, budget ≤ fuel → ∃ found next,
          mergeBase fuel sampleStart.2 second last = .ok found next ∧ found.isSome := by
  obtain ⟨second, last, commit, ran, orderly, -, held, parents, ⟨first, firstHeld⟩, -⟩ :=
    branchOff_sample
  obtain ⟨budget, returns⟩ := mergeBase_distance orderly.readable orderly.closed firstHeld held
  refine ⟨second, last, ran, budget, fun fuel enough => ?_⟩
  obtain ⟨found, next, merged, some_, -⟩ := returns fuel enough
  refine ⟨found, next, merged, some_.mpr ⟨sampleStart.2, .refl, .single ?_⟩⟩
  rw [View.parents_of_commit held, parents]
  exact List.mem_singleton_self _

/-- Two commits over a middle one, the second of which is also a child of the first commit: it is
the first commit that is found, though the middle one is a common ancestor and its child.
-/
theorem mergeBase_not_best
    : Run.valueOf ((do
        let middle ← commitWithRoot [sampleStart.2] Hash.zero "middle"
        let first ← commitWithRoot [middle] Hash.zero "first"
        let side ← commitWithRoot [middle] Hash.zero "side"
        let second ← commitWithRoot [sampleStart.2, side] Hash.zero "second"
        let found ← mergeBase 20 first second
        let ofFirst ← collectAncestors 20 first
        let ofSecond ← collectAncestors 20 second
        let ofMiddle ← collectAncestors 20 middle
        pure (found = some sampleStart.2 && middle ∈ ofFirst && middle ∈ ofSecond
          && middle ≠ sampleStart.2 && sampleStart.2 ∈ ofMiddle)
        : Run EpochsError DiskStore Bool) sample)
      = some true := by
  decide +kernel

end DiskStore
end Epochs
