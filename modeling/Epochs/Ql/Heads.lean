import Epochs.Ql.Housed

/-! HEAD names a branch that can be read, in memory and in its file, as long as names stay below
the directory of refs, HEAD is pointed at refs that can be read, and the ref of HEAD is not
deleted under another spelling of its name.
-/

namespace Epochs.Ql.Engine

open Lib DiskStore

variable [Blake3] {store last : DiskStore} {name : String}

/-- HEAD names a branch that can be read, in memory and in its file. -/
structure Headed (store : DiskStore) (name : String) : Prop extends Housed store name where
  read : ∃ target, store.repo.branchAt store.world.fs name = .ok { name, target }

-- Steps

theorem Headed.tip (headed : Headed store name)
    : ∃ target, store.tip (Repo.refParts name) = some target := by
  obtain ⟨target, read⟩ := headed.read
  exact ⟨target, Repo.tip_of_branchAt headed.settled.stands headed.below read⟩

/-- Storing objects keeps HEAD. -/
theorem Headed.serves (headed : Headed store name) (serves : Serves store last)
    (roomy : Traced.Roomy last.cas.handed)
    : Headed last name := by
  have settled := headed.settled
  obtain ⟨target, read⟩ := headed.read
  obtain ⟨tip, held⟩ := headed.tip
  refine ⟨headed.toHoused.serves serves roomy, tip, ?_⟩
  rw [serves.repo]
  refine Repo.branchAt_of_dirs settled.stands headed.below read
    (fun path => serves.objects.kept settled.sane roomy path _) ?_
  have still := serves.tip settled (Repo.refParts name)
  rw [DiskStore.tip, serves.repo] at still
  rw [still, held]

/-- A change of a ref keeps HEAD, unless it deletes HEAD's own. -/
theorem Headed.changed (headed : Headed store name) {other : String} (below : Repo.Below other)
    (op : Repo.RefOp) (spares : op = .delete → Repo.refParts other ≠ Repo.refParts name)
    : Headed (Run.stateOf (refOp other op store)) name := by
  have settled := headed.settled
  have alters := op.run_alters settled.stands below
  obtain ⟨target, read⟩ := headed.read
  obtain ⟨before, held⟩ := headed.tip
  have repo := refOp_repo other op store
  have tip : ∃ after, (Run.stateOf (refOp other op store)).tip (Repo.refParts name)
      = some after := by
    cases ran : refOp other op store with
    | ok value next =>
      rw [Run.stateOf_ok, tip_of_refOp settled below op ran]
      split
      · rename_i same
        cases op with
        | create target => exact ⟨target, rfl⟩
        | update target => exact ⟨target, rfl⟩
        | delete => exact absurd same.symm (spares rfl)
      · exact ⟨before, held⟩
    | error fault next =>
      have meets := op.run_meets settled.stands below
      rw [refOp_apply] at ran
      cases changed : op.run store.repo other store.world with
      | ok value world =>
        rw [changed] at ran
        cases ran
      | error reason world =>
        rw [changed] at ran meets
        cases ran
        rcases meets.2 with ⟨-, -, same⟩ | killed
        · refine ⟨before, ?_⟩
          rw [← held]
          exact congrArg (·.bind Repo.tipOf) (same _)
        · exact absurd settled.sane.2 killed.2
  obtain ⟨after, found⟩ := tip
  refine ⟨headed.toHoused.changed below op, after, ?_⟩
  rw [repo]
  refine Repo.branchAt_of_dirs settled.stands headed.below read (fun _ dir => ?_) ?_
  · rw [refOp_fs]
    exact alters.dirs dir
  · rw [DiskStore.tip, repo] at found
    exact found

/-- Pointing HEAD at a ref that can be read. -/
theorem headed_of_setHead (settled : store.Settled) (below : Repo.Below name)
    (trimmed : Repo.Trimmed name) {branch : Branch}
    (read : store.repo.branchAt store.world.fs name = .ok branch)
    (ran : setHead name store = .ok () last)
    : Headed last name := by
  obtain ⟨-, repo, -, alters, -⟩ := (setHead_meets settled name).of_ok ran
  have tip := Repo.tip_of_branchAt settled.stands below read
  refine ⟨housed_of_setHead settled below trimmed ran, branch.target, ?_⟩
  have same : last.repo.branchAt last.world.fs name = store.repo.branchAt last.world.fs name := by
    rw [repo]
    rfl
  rw [same]
  refine Repo.branchAt_of_dirs settled.stands below read (fun _ => alters.dirs) ?_
  rw [Repo.tip, alters.fileAt settled.formed (by simp [Repo.heads, Repo.headPath])]
  exact tip

/-- Closing and opening the store recovers HEAD. -/
theorem Headed.reopen (headed : Headed store name)
    : ∃ next, DiskStore.reopen store = .ok () next ∧ Headed next name := by
  obtain ⟨next, ran, housed, -, -, -, repo, nodes, files⟩ := headed.toHoused.reopen
  obtain ⟨target, found⟩ := headed.read
  obtain ⟨tip, held⟩ := headed.tip
  refine ⟨next, ran, housed, tip, ?_⟩
  rw [repo]
  refine Repo.branchAt_of_dirs headed.settled.stands headed.below found
    (fun path dir => (nodes path).trans dir) ?_
  rw [Repo.tip, files _ (store.repo.aside_heads _)]
  exact held

-- Runs

/-- What keeps HEAD valid: names stay below the directory of refs, HEAD is pointed at refs that
can be read and whose names do not end in white space, and its ref is not deleted under another
name.
-/
def Careful (store : DiskStore) : Call → Prop
  | .statement (.version (.branch (.create name _))) => Repo.Below name
  | .statement (.version (.branch (.delete name))) =>
    Repo.Below name
    ∧ ∀ current, store.repo.head = some current
      → name = current ∨ Repo.refParts name ≠ Repo.refParts current
  | .statement (.version (.checkout (.branch name))) =>
    Repo.Below name ∧ Repo.Trimmed name
    ∧ (World.present store.world.fs (store.repo.branchRefPath name) = true
      → ∃ branch, store.repo.branchAt store.world.fs name = .ok branch)
  | .statement (.version (.merge stmt)) => ∀ name, stmt.into = .branch name → Repo.Below name
  | _ => True

omit [Blake3] in
theorem Careful.tame {call : Call} (careful : Careful store call) : Tame store call := by
  cases call with
  | reopen => trivial
  | statement stmt =>
    cases stmt with
    | query query => trivial
    | version stmt =>
      cases stmt with
      | commit stmt => trivial
      | branch stmt =>
        cases stmt with
        | create name start => exact careful
        | delete name => exact careful.1
      | checkout target =>
        cases target with
        | branch name => exact ⟨careful.1, careful.2.1⟩
        | _ => trivial
      | merge stmt => exact careful
      | diff stmt => trivial

/-- The ref of HEAD is not deleted: the store itself refuses that under HEAD's own name. -/
theorem Moves.careful {fuel : Nat} {stmt : Statement} {other : String} {op : Repo.RefOp}
    {middle : DiskStore} (moves : Moves fuel store stmt other op middle)
    (headed : Headed store name) (careful : Careful store (.statement stmt)) (deletes : op = .delete)
    : other = name ∨ Repo.refParts other ≠ Repo.refParts name := by
  cases moves with
  | delete => exact careful.2 name headed.head
  | commit | create | merge => cases deletes

omit [Blake3] in
/-- A ref that HEAD names is not deleted under that name. -/
theorem delete_head (current : store.repo.head = some name)
    : ∃ error, refOp name .delete store = .error (.err error) store := by
  refine ⟨.invalidTarget s!"cannot delete HEAD branch '{name}'", ?_⟩
  rw [refOp_apply, Repo.RefOp.run, Repo.deleteBranch, if_pos current]
  rfl

theorem Headed.moved (headed : Headed store name) {fuel : Nat} {stmt : Statement} {other : String}
    {op : Repo.RefOp} {middle : DiskStore} (moves : Moves fuel store stmt other op middle)
    (careful : Careful store (.statement stmt))
    (roomy : Traced.Roomy (Run.stateOf (refOp other op middle)).cas.handed)
    : Headed (Run.stateOf (refOp other op middle)) name := by
  have below := moves.below headed.toHoused careful.tame
  rw [refOp_handed other op middle] at roomy
  have later := headed.serves moves.serves roomy
  by_cases own : op = .delete ∧ other = name
  · obtain ⟨rfl, rfl⟩ := own
    obtain ⟨error, refused⟩ := delete_head later.head
    rw [refused]
    exact later
  · exact later.changed below op fun deletes =>
      (moves.careful headed careful deletes).resolve_left fun same => own ⟨deletes, same⟩

/-- A careful call keeps HEAD valid. -/
theorem Headed.after [HashSeed] (headed : Headed store name) {call : Call} (fuel : Nat)
    (careful : Careful store call) (roomy : Traced.Roomy (call.after fuel store).cas.handed)
    : ∃ next, Headed (call.after fuel store) next := by
  cases call with
  | reopen =>
    obtain ⟨next, ran, after⟩ := headed.reopen
    rw [Call.after, ran]
    exact ⟨name, after⟩
  | statement stmt =>
    have leaves := executeStatement_leaves fuel store stmt
    rw [Call.after] at roomy ⊢
    generalize Run.stateOf (executeStatement fuel stmt store) = last at leaves roomy ⊢
    cases leaves with
    | early calls => exact ⟨name, headed.serves calls.toServes roomy⟩
    | refused moves => exact ⟨name, headed.serves moves.serves roomy⟩
    | moved moves => exact ⟨name, headed.moved moves careful roomy⟩
    | @pointed other checkout =>
      subst checkout
      obtain ⟨below, trimmed, readable⟩ := careful
      have meets := setHead_meets headed.settled other
      cases set_ : setHead other store with
      | ok value last =>
        rw [set_] at meets
        obtain ⟨branch, found⟩ := readable meets.2.2.1
        exact ⟨other, headed_of_setHead headed.settled below trimmed found set_⟩
      | error reason last =>
        rw [set_] at meets
        exact ⟨name, meets.2 ▸ headed⟩

theorem headed_of_fresh {path : Path} {branch message : String} {genesis : Hash}
    (fresh : store.Fresh path branch message genesis) (below : Repo.Below branch)
    (trimmed : Repo.Trimmed branch)
    : Headed store branch :=
  ⟨housed_of_fresh fresh below trimmed, genesis, fresh.read⟩

omit [Blake3] in
theorem head_of_read {branch : Branch} (current : store.repo.head = some name)
    (read : store.repo.branchAt store.world.fs name = .ok branch)
    : head store = .ok (some branch) store := by
  rw [head, Run.get_bind_apply]
  rw [current]
  dsimp only
  rw [Run.bind_apply, getBranch_apply, read]
  rfl

/-- In every run from a new repository whose calls are careful and whose payloads fit, HEAD can be
read in every state reached, and opening the repository recovers its name.
-/
theorem head_valid [HashSeed] {path : Path} {branch message : String} {genesis : Hash}
    {world opened : World} (plain : ∀ part ∈ path, part ≠ "" ∧ part ≠ "." ∧ part ≠ "..")
    (formed : world.fs.WellFormed) (alive : world.deadline = none)
    (unused : Repo.Unused world.fs path) (below : Repo.Below branch)
    (trimmed : Repo.Trimmed branch)
    (initialised : DiskStore.init path branch message world = .ok (store, genesis) opened)
    (reaches : Reaches Careful store last) (roomy : Traced.Roomy last.cas.handed)
    : (∃ branch, head last = .ok (some branch) last)
      ∧ ∃ next, DiskStore.reopen last = .ok () next ∧ next.repo.head = last.repo.head := by
  have valid : ∃ name, Headed last name := by
    refine @Reaches.invariant _ _ _ (fun store => ∃ name, Headed store name) _ _ reaches roomy
      (fun roomy => ⟨branch, headed_of_fresh
        (init_fresh plain formed alive unused below roomy initialised) below trimmed⟩) ?_
    rintro fuel call store ⟨name, headed⟩ careful roomy
    exact headed.after fuel careful roomy
  obtain ⟨name, headed⟩ := valid
  obtain ⟨target, read⟩ := headed.read
  obtain ⟨next, ran, after⟩ := headed.reopen
  exact ⟨⟨_, head_of_read headed.head read⟩, next, ran, by rw [after.head, headed.head]⟩

end Epochs.Ql.Engine

namespace Epochs.Ql.Engine

open Lib DiskStore

attribute [local instance] Blake3.linked insertionOrder

def checkedOut : List Call :=
  [.statement (.version (.branch (.create "dev" none))),
    .statement (.version (.checkout (.branch "dev"))), .reopen]

theorem head_valid_checkedOut
    : (∃ branch, head (checkedOut.foldl (Call.after 8) sample)
          = .ok (some branch) (checkedOut.foldl (Call.after 8) sample))
      ∧ ∃ next, DiskStore.reopen (checkedOut.foldl (Call.after 8) sample) = .ok () next
        ∧ next.repo.head = (checkedOut.foldl (Call.after 8) sample).repo.head := by
  refine head_valid (by decide) FileSystem.wellFormed_empty rfl (unused_bare ["r"])
    (by decide +kernel) (by decide +kernel) init_sample (Along.reaches ?_) (by decide +kernel)
  have below : Repo.Below "dev" := by decide +kernel
  exact ⟨below, ⟨below, by decide +kernel, fun _ =>
    ⟨⟨"dev", sampleStart.2⟩, by decide +kernel⟩⟩, trivial, trivial⟩

/-- HEAD is lost: it is pointed at the directory that a nested name made; its ref is deleted under
another spelling of its name; and a name that ends in a blank is read back without it.
-/
theorem head_invalid
    : Run.valueOf (head (Run.stateOf
          (execute 8 "CREATE BRANCH \"a/b\"; CHECKOUT BRANCH a;" sample)))
        = none
      ∧ Run.valueOf (head (Run.stateOf (execute 8 "DELETE BRANCH \"./main\";" sample))) = none
      ∧ (Run.stateOf (execute 8 "CREATE BRANCH \"x \"; CHECKOUT BRANCH \"x \";" sample)).repo.head
        = some "x "
      ∧ (Run.stateOf (DiskStore.reopen (Run.stateOf
          (execute 8 "CREATE BRANCH \"x \"; CHECKOUT BRANCH \"x \";" sample)))).repo.head
        = some "x" := by
  decide +kernel

end Epochs.Ql.Engine
