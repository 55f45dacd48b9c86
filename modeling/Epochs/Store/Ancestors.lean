import Epochs.Lib.Distances
import Epochs.Store.Histories

/-! The two walks along parents. One collects what a commit reaches, the other lists it in the order
of the distance from the commit, up to a number of generations.
-/

namespace Epochs.DiskStore

open Lib Worklist

variable [Blake3] {store : DiskStore}

omit [Blake3] in
theorem enqueueAt_eq (depth : Nat) (queue : List (Hash × Nat)) (visited hashes : List Hash)
    : enqueueAt depth queue visited hashes
      = (queue ++ (unseen visited hashes).map fun hash => (hash, depth),
        visited ++ unseen visited hashes) := by
  induction hashes generalizing queue visited with
  | nil => simp [enqueueAt, unseen]
  | cons hash rest ih =>
    rw [enqueueAt, unseen]
    split
    · exact ih queue visited
    · rw [ih]
      simp

/-- A walk from whole histories is a walk over the graph of commits. -/
theorem climbParents_eq (readable : store.Readable) (maxDepth fuel : Nat)
    {queue : List (Hash × Nat)} {visited result : List Hash}
    (whole : ∀ pair ∈ queue, store.view.Whole pair.1)
    : ∃ next, Looks store next
        ∧ climbParents maxDepth fuel queue visited result store
          = match explore store.view.parents maxDepth fuel queue visited result with
            | some found => .ok found next
            | none => .error .fuel next := by
  induction fuel generalizing store queue visited result with
  | zero => cases queue <;> exact ⟨store, looks_frame.refl store, rfl⟩
  | succ fuel ih =>
    cases queue with
    | nil => exact ⟨store, looks_frame.refl store, rfl⟩
    | cons pair queue =>
      obtain ⟨current, depth⟩ := pair
      have later := fun pair member => whole pair (List.mem_cons_of_mem _ member)
      rw [climbParents, explore]
      split
      · exact ih readable later
      · have here := whole (current, depth) List.mem_cons_self
        obtain ⟨commit, held⟩ := here.commit
        obtain ⟨middle, loaded, looks⟩ := loadCommit_of_held readable held
        have view := looks.view readable
        have edges : store.view.parents current = commit.parents :=
          View.parents_of_commit held
        obtain ⟨next, further, ran⟩ := @ih middle (looks.readable readable)
          (queue ++ (unseen visited commit.parents).map fun hash => (hash, depth + 1))
          (visited ++ unseen visited commit.parents)
          (if 0 < depth then result ++ [current] else result) (by
            rw [view]
            intro pair member
            rcases List.mem_append.mp member with queued | added
            · exact later pair queued
            · obtain ⟨hash, inNew, rfl⟩ := List.mem_map.mp added
              exact here.of_parent (edges ▸ (mem_unseen.mp inNew).1))
        refine ⟨next, looks_frame.trans looks further, ?_⟩
        rw [Run.bind_of_ok (Run.mapErr_eq_ok.mpr loaded), enqueueAt_eq, edges, ← view]
        exact ran

/-- The ancestors within a depth are listed, each once and nearer ones first. -/
theorem ancestorsWithinDepth_spec (readable : store.Readable) {start : Hash}
    (whole : store.view.Whole start) {fuel : Nat} (enough : 1 + store.known.card ≤ fuel)
    (maxDepth : Nat)
    : ∃ found next, ancestorsWithinDepth fuel start maxDepth store = .ok found next
        ∧ found.Nodup
        ∧ (∀ hash, hash ∈ found ↔ ∃ distance, 1 ≤ distance ∧ distance ≤ maxDepth
          ∧ Distance store.view.parents start distance hash)
        ∧ found.Pairwise fun first second => ∀ near far,
            Distance store.view.parents start near first
            → Distance store.view.parents start far second → near ≤ far := by
  by_cases none : maxDepth = 0
  · refine ⟨[], store, by rw [ancestorsWithinDepth, if_pos none]; rfl, List.nodup_nil, fun hash => ?_,
      List.Pairwise.nil⟩
    constructor
    · intro member
      cases member
    · rintro ⟨distance, positive, within, -⟩
      omega
  · obtain ⟨universe_, known, inside, closed⟩ := exists_known_ancestors whole
    have fewer : (universe_ \ [start].toFinset).card ≤ store.known.card :=
      Finset.card_le_card (Finset.sdiff_subset.trans known)
    obtain ⟨found, explored⟩ := @explore_returns _ store.view.parents _ maxDepth fuel
      [(start, 0)] [start] [] universe_ (by simpa using inside) closed
      (by rw [List.length_singleton]; omega)
    obtain ⟨next, -, ran⟩ := @climbParents_eq _ store readable maxDepth fuel [(start, 0)] [start] []
      (by simpa using whole)
    rw [explored] at ran
    exact ⟨found, next, by rw [ancestorsWithinDepth, if_neg none]; exact ran,
      explore_spec explored⟩

/-- In a store whose parents are commits the walk from a commit collects what it reaches, and the
walk up to a depth lists the other commits whose distance is within the depth, each once and nearer
ones first. Deep enough the two differ only in the commit itself.
-/
theorem ancestors_exact (readable : store.Readable) (closed : store.view.Closed) {start : Hash}
    {commit : Commit} (held : store.view.commit start = some commit)
    : ∃ budget, ∀ fuel, budget ≤ fuel → ∃ ancestors next,
        collectAncestors fuel start store = .ok ancestors next
        ∧ ancestors.Nodup
        ∧ (∀ hash, hash ∈ ancestors ↔ store.view.Reaches start hash)
        ∧ (∀ maxDepth, ∃ found last,
          ancestorsWithinDepth fuel start maxDepth store = .ok found last
          ∧ found.Nodup
          ∧ (∀ hash, hash ∈ found ↔ hash ≠ start ∧ ∃ distance, 1 ≤ distance ∧ distance ≤ maxDepth
            ∧ Worklist.Distance store.view.parents start distance hash)
          ∧ found.Pairwise fun first second => ∀ near far,
              Worklist.Distance store.view.parents start near first
              → Worklist.Distance store.view.parents start far second → near ≤ far)
        ∧ ∃ deep, ∀ maxDepth, deep ≤ maxDepth → ∃ found last,
            ancestorsWithinDepth fuel start maxDepth store = .ok found last
            ∧ ∀ hash, hash ∈ found ↔ hash ∈ ancestors ∧ hash ≠ start := by
  have whole := closed.whole held
  refine ⟨store.budget + (1 + store.known.card), fun fuel enough => ?_⟩
  obtain ⟨ancestors, next, collected, -, distinct, members⟩ :=
    collectAncestors_spec readable whole (by omega : store.budget ≤ fuel)
  have within := @ancestorsWithinDepth_spec _ store readable start whole fuel (by omega)
  refine ⟨ancestors, next, collected, distinct, members, fun maxDepth => ?_, ?_⟩
  · obtain ⟨found, last, ran, each, listed, ordered⟩ := within maxDepth
    refine ⟨found, last, ran, each, fun hash => ?_, ordered⟩
    rw [listed]
    constructor
    · rintro ⟨distance, positive, near, shortest⟩
      exact ⟨shortest.pos_iff.mp positive, distance, positive, near, shortest⟩
    · exact And.right
  · -- The furthest ancestor bounds the depth.
    obtain ⟨deep, bound⟩ := Worklist.exists_deepest fun hash member => (members hash).mp member
    refine ⟨deep, fun maxDepth below => ?_⟩
    obtain ⟨found, last, ran, -, listed, -⟩ := within maxDepth
    refine ⟨found, last, ran, fun hash => ?_⟩
    rw [listed, members]
    constructor
    · rintro ⟨distance, positive, -, shortest⟩
      exact ⟨Worklist.reaches_iff_steps.mpr ⟨distance, shortest.1⟩, shortest.pos_iff.mp positive⟩
    · rintro ⟨reaches, other⟩
      obtain ⟨count, small, steps⟩ := bound hash ((members hash).mpr reaches)
      obtain ⟨distance, less, shortest⟩ := Worklist.exists_distance steps
      exact ⟨distance, shortest.pos_iff.mpr other, by omega, shortest⟩

end Epochs.DiskStore

namespace Epochs.DiskStore

open Lib Worklist

attribute [local instance] Blake3.linked

/-- A commit over the first one of a repository. -/
theorem ancestors_exact_branchOff
    : ∃ second last, branchOff sample = .ok second last
        ∧ ∃ budget, ∀ fuel, budget ≤ fuel → ∃ ancestors next,
          collectAncestors fuel second last = .ok ancestors next ∧ sampleStart.2 ∈ ancestors := by
  obtain ⟨second, last, commit, ran, orderly, -, held, parents, -⟩ := branchOff_sample
  obtain ⟨budget, returns⟩ := ancestors_exact orderly.readable orderly.closed held
  refine ⟨second, last, ran, budget, fun fuel enough => ?_⟩
  obtain ⟨ancestors, next, collected, -, members, -⟩ := returns fuel enough
  refine ⟨ancestors, next, collected, (members _).mpr (.single ?_)⟩
  rw [View.parents_of_commit held, parents]
  exact List.mem_singleton_self _

end Epochs.DiskStore
