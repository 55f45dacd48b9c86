import Epochs.Ql.Runs

/-! Runs whose names stay below the directory of refs. The store stays as its own operations
leave it, and HEAD names such a branch, in memory and in its file; the branch need not exist.
-/

namespace Epochs.Ql.Engine

open Lib DiskStore Run Repo

variable [Blake3] {store last : DiskStore} {name : String}

/-- A settled store whose HEAD names a branch below the directory of refs. -/
structure Housed (store : DiskStore) (name : String) : Prop where
  settled : store.Settled
  head : store.repo.head = some name
  below : Repo.Below name
  trimmed : Repo.Trimmed name
  file : store.world.fs.fileAt (Repo.headPath store.repo.path) = some (Repo.headText name)

/-- Names stay below the directory of refs, and HEAD's does not end in white space. -/
def Tame (_ : DiskStore) : Call → Prop
  | .statement (.version (.branch (.create name _))) => Repo.Below name
  | .statement (.version (.branch (.delete name))) => Repo.Below name
  | .statement (.version (.checkout (.branch name))) => Repo.Below name ∧ Repo.Trimmed name
  | .statement (.version (.merge stmt)) => ∀ name, stmt.into = .branch name → Repo.Below name
  | _ => True

-- Steps

theorem housed_of_fresh {path : Path} {branch message : String} {genesis : Hash}
    (fresh : store.Fresh path branch message genesis) (below : Below branch)
    (trimmed : Trimmed branch)
    : Housed store branch := by
  refine ⟨fresh.settled, by rw [fresh.repo], below, trimmed, ?_⟩
  rw [fresh.repo]
  exact fresh.headFile

theorem Housed.serves (housed : Housed store name) (serves : Serves store last)
    (roomy : Traced.Roomy last.cas.handed)
    : Housed last name where
  settled := housed.settled.serves serves roomy
  head := by rw [serves.repo, housed.head]
  below := housed.below
  trimmed := housed.trimmed
  file := by
    rw [serves.repo, (serves.elsewhere housed.settled store.repo.aside_headPath).2, housed.file]

theorem Housed.changed (housed : Housed store name) {other : String} (below : Below other)
    (op : RefOp)
    : Housed (stateOf (refOp other op store)) name where
  settled := (refOp_turns housed.settled below op).settled
  head := (refOp_repo other op store) ▸ housed.head
  below := housed.below
  trimmed := housed.trimmed
  file := by
    have alters := op.run_alters housed.settled.stands below
    rw [refOp_repo other op store, refOp_fs, alters.fileAt housed.settled.formed, housed.file]
    simp [headPath, refPath, heads]

theorem housed_of_setHead (settled : store.Settled) (below : Below name)
    (trimmed : Trimmed name) (ran : setHead name store = .ok () last)
    : Housed last name := by
  obtain ⟨turns, repo, -, -, written⟩ := (setHead_meets settled name).of_ok ran
  exact ⟨turns.settled, by rw [repo], below, trimmed, by rw [turns.path, written]⟩

/-- Closing and opening the store recovers HEAD. -/
theorem Housed.reopen (housed : Housed store name)
    : ∃ next, DiskStore.reopen store = .ok () next ∧ Housed next name ∧ next.view = store.view
        ∧ next.cas.handed = store.cas.handed
        ∧ next.commitCache = LruMap.new commitCacheCap
        ∧ next.repo = store.repo
        ∧ (∀ path, next.world.fs.node path = store.world.fs.node path)
        ∧ ∀ path, CasDisk.Aside store.repo.path path
          → next.world.fs.fileAt path = store.world.fs.fileAt path := by
  have settled := housed.settled
  have read := headAt_of_file settled.stands settled.near housed.file housed.trimmed
  obtain ⟨next, ran, after, view, repo, handed, cache, nodes, files⟩ := reopen_spec settled read
  have same : next.repo = store.repo := by rw [repo, ← housed.head]
  refine ⟨next, ran, ⟨after, by rw [repo], housed.below, housed.trimmed, ?_⟩, view, handed, cache,
    same, nodes, files⟩
  rw [same, files _ store.repo.aside_headPath, housed.file]

-- Runs

/-- The ref a tame statement changes is below the directory of refs. -/
theorem Moves.below {fuel : Nat} {stmt : Statement} {other : String} {op : RefOp}
    {middle : DiskStore} (moves : Moves fuel store stmt other op middle)
    (housed : Housed store name) (tame : Tame store (.statement stmt))
    : Below other := by
  cases moves with
  | @commit stmt head hash middle made =>
    obtain ⟨current⟩ := commitObjects_eq_ok made
    have same : name = head.name := Option.some.inj (housed.head.symm.trans current)
    exact same ▸ housed.below
  | create found => exact tame
  | delete => exact tame
  | @merge stmt source into other middle fromSource fromInto named forward =>
    rcases mergeBranch_eq_ok named with given | ⟨-, current⟩
    · exact tame other given
    · have same : name = other := Option.some.inj (housed.head.symm.trans current)
      exact same ▸ housed.below

theorem Housed.moved (housed : Housed store name) {fuel : Nat} {stmt : Statement} {other : String}
    {op : RefOp} {middle : DiskStore} (moves : Moves fuel store stmt other op middle)
    (tame : Tame store (.statement stmt))
    (roomy : Traced.Roomy (stateOf (refOp other op middle)).cas.handed)
    : Housed (stateOf (refOp other op middle)) name := by
  rw [refOp_handed other op middle] at roomy
  exact (housed.serves moves.serves roomy).changed (moves.below housed tame) op

/-- A tame call keeps the store housed. -/
theorem Housed.after [HashSeed] (housed : Housed store name) {call : Call} (fuel : Nat)
    (tame : Tame store call) (roomy : Traced.Roomy (call.after fuel store).cas.handed)
    : ∃ next, Housed (call.after fuel store) next := by
  cases call with
  | reopen =>
    obtain ⟨next, ran, after, -⟩ := housed.reopen
    refine ⟨name, ?_⟩
    rw [Call.after, ran]
    exact after
  | statement stmt =>
    have leaves := executeStatement_leaves fuel store stmt
    rw [Call.after] at roomy ⊢
    generalize stateOf (executeStatement fuel stmt store) = last at leaves roomy ⊢
    cases leaves with
    | early calls => exact ⟨name, housed.serves calls.toServes roomy⟩
    | refused moves => exact ⟨name, housed.serves moves.serves roomy⟩
    | moved moves => exact ⟨name, housed.moved moves tame roomy⟩
    | @pointed other checkout =>
      subst checkout
      have meets := setHead_meets housed.settled other
      cases set_ : setHead other store with
      | ok value last => exact ⟨other, housed_of_setHead housed.settled tame.1 tame.2 set_⟩
      | error reason last =>
        rw [set_] at meets
        exact ⟨name, meets.2 ▸ housed⟩

/-- A tame call loses no object. -/
theorem Housed.extends_ [HashSeed] (housed : Housed store name) {call : Call} (fuel : Nat)
    (tame : Tame store call) (roomy : Traced.Roomy (call.after fuel store).cas.handed)
    : store.view.Extends (call.after fuel store).view := by
  have stored {middle : DiskStore} (serves : Serves store middle)
      (roomy : Traced.Roomy middle.cas.handed) : store.view.Extends middle.view :=
    serves.objects.extends_ housed.settled.sane roomy
  cases call with
  | reopen =>
    obtain ⟨next, ran, -, view, -⟩ := housed.reopen
    rw [Call.after, ran, stateOf_ok, view]
    exact View.Extends.refl _
  | statement stmt =>
    have leaves := executeStatement_leaves fuel store stmt
    rw [Call.after] at roomy ⊢
    generalize stateOf (executeStatement fuel stmt store) = last at leaves roomy ⊢
    cases leaves with
    | early calls => exact stored calls.toServes roomy
    | refused moves => exact stored moves.serves roomy
    | @moved other op middle moves =>
      rw [refOp_handed other op middle] at roomy
      have later := housed.serves moves.serves roomy
      rw [(refOp_turns later.settled (moves.below housed tame) op).view]
      exact stored moves.serves roomy
    | @pointed other checkout =>
      have meets := setHead_meets housed.settled other
      cases ran : setHead other store with
      | ok value next =>
        rw [ran] at meets
        rw [stateOf_ok, meets.1.view]
        exact View.Extends.refl _
      | error reason next =>
        rw [ran] at meets
        rw [stateOf_error, meets.2]
        exact View.Extends.refl _

/-- In every run of tame calls from a new repository whose payloads fit, the store is housed. -/
theorem Reaches.housed [HashSeed] {path : Path} {branch message : String} {genesis : Hash}
    {world opened : World} (plain : ∀ part ∈ path, part ≠ "" ∧ part ≠ "." ∧ part ≠ "..")
    (formed : world.fs.WellFormed) (alive : world.deadline = none)
    (unused : Unused world.fs path) (below : Below branch)
    (trimmed : Trimmed branch)
    (initialised : DiskStore.init path branch message world = .ok (store, genesis) opened)
    (reaches : Reaches Tame store last) (roomy : Traced.Roomy last.cas.handed)
    : ∃ name, Housed last name := by
  refine @Reaches.invariant _ _ _ (fun store => ∃ name, Housed store name) _ _ reaches roomy
    (fun roomy => ⟨branch, housed_of_fresh
      (init_fresh plain formed alive unused below roomy initialised) below trimmed⟩) ?_
  rintro fuel call store ⟨name, housed⟩ tame roomy
  exact housed.after fuel tame roomy

end Epochs.Ql.Engine
