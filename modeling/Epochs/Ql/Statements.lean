import Epochs.Ql.Steps
import Epochs.Store.Settled

/-! What a statement does to the refs: it reads and stores objects, and then it may change one ref
or point HEAD at a branch.
-/

namespace Epochs.Ql.Engine

open Lib DiskStore

variable [Blake3] {fuel : Nat} {store last : DiskStore}

-- Reading targets

omit [Blake3] in
/-- The relation of a step that leaves no trace. -/
theorem same_frame : Frame fun before after : DiskStore => after = before :=
  ⟨fun _ => rfl, fun first second => second.trans first⟩

omit [Blake3] in
theorem headBranch_eq_ok {branch : Branch} (found : headBranch store = .ok branch last)
    : last = store ∧ store.repo.head = some branch.name
      ∧ store.repo.branchAt store.world.fs branch.name = .ok branch := by
  have same := headBranch_within same_frame store
  rw [found, Run.stateOf_ok] at same
  refine ⟨same, ?_⟩
  rw [headBranch, lift, Run.bind_apply, Run.mapErr_apply, DiskStore.head, Run.bind_apply,
    Run.get_apply] at found
  cases named : store.repo.head with
  | none => simp [named, fail] at found
  | some name =>
    simp only [named] at found
    rw [Run.bind_apply, getBranch_apply] at found
    cases read : store.repo.branchAt store.world.fs name with
    | error error => simp [read] at found
    | ok branch' =>
      simp only [read, Run.ofExcept_ok, Run.pure_apply, EStateM.Result.ok.injEq] at found
      obtain ⟨rfl, -⟩ := found
      have own := (Repo.branchAt_eq_ok.mp read).1
      exact ⟨congrArg some own.symm, own ▸ read⟩

omit [Blake3] in
theorem resolveTargetRef_same {target : TargetRef} {hash : Hash}
    (found : resolveTargetRef target store = .ok hash last)
    : last = store := by
  have same := resolveTargetRef_within same_frame target store
  rwa [found] at same

-- Commits

/-- The steps of a commit statement up to the ref, each with the state it reaches. -/
inductive Prepares (fuel : Nat) (stmt : CommitStmt) (store : DiskStore) (head : Branch) (hash : Hash)
    (middle : DiskStore) : Prop where
  | intro {parents : List Hash} {first newRoot : Hash} {base : Commit} {ops : List HamtOp}
      {schema : SchemaRegistry} {oldDoc newDoc : Doc} {indexRoots : IndexRoots}
      {loaded applied viewed reviewed indexed : DiskStore}
      (current : store.repo.head = some head.name)
      (read : store.repo.branchAt store.world.fs head.name = .ok head)
      (resolved : commitParents stmt head store = .ok parents store)
      (foremost : parents[0]? = some first)
      (load : loadCommit first store = .ok base loaded)
      (payload : stmtOps stmt.payload = .ok ops)
      (apply : applyHamtOps fuel
        (if base.rootHamt = Hash.zero then none else some base.rootHamt) ops loaded
        = .ok newRoot applied)
      (known : SchemaRegistry.schemaAt applied.world.fs applied.repo.path = .ok schema)
      (old : docOf fuel base.rootHamt applied = .ok oldDoc viewed)
      (new : docOf fuel newRoot viewed = .ok newDoc reviewed)
      (index : updateIndexesForCommit fuel schema oldDoc newDoc base.indexRoots reviewed
        = .ok indexRoots indexed)
      (calls : Calls store applied)
      (further : Calls applied indexed)
      (write : commitWithIndexes parents newRoot indexRoots (stmt.message.getD "commit") indexed
        = .ok hash middle)

omit [Blake3] in
theorem commitParents_same {stmt : CommitStmt} {head : Branch} {parents : List Hash}
    (found : commitParents stmt head store = .ok parents last)
    : last = store := by
  have same := commitParents_within same_frame stmt head store
  rwa [found] at same

variable {middle : DiskStore}

theorem commitObjects_eq_ok {stmt : CommitStmt} {head : Branch} {hash : Hash}
    (made : commitObjects fuel stmt store = .ok (head, hash) middle)
    : Prepares fuel stmt store head hash middle := by
  rw [commitObjects] at made
  obtain ⟨prepared, s10, prepare, made⟩ := Run.bind_eq_ok.mp made
  obtain ⟨written, s11, write, made⟩ := Run.bind_eq_ok.mp made
  cases made
  obtain ⟨branch, s1, read, prepare⟩ := Run.bind_eq_ok.mp prepare
  obtain ⟨parents, s2, resolved, prepare⟩ := Run.bind_eq_ok.mp prepare
  obtain ⟨first, s3, foremost, prepare⟩ := Run.bind_eq_ok.mp prepare
  obtain ⟨base, s4, load, prepare⟩ := Run.bind_eq_ok.mp prepare
  obtain ⟨ops, s5, payload, prepare⟩ := Run.bind_eq_ok.mp prepare
  obtain ⟨newRoot, s6, apply, prepare⟩ := Run.bind_eq_ok.mp prepare
  obtain ⟨schema, s7, known, prepare⟩ := Run.bind_eq_ok.mp prepare
  obtain ⟨oldDoc, s8, old, prepare⟩ := Run.bind_eq_ok.mp prepare
  obtain ⟨newDoc, s9, new, prepare⟩ := Run.bind_eq_ok.mp prepare
  obtain ⟨indexRoots, s10, index, prepare⟩ := Run.bind_eq_ok.mp prepare
  cases prepare
  obtain ⟨rfl, current, found⟩ := headBranch_eq_ok read
  obtain rfl := commitParents_same resolved
  have at_ : parents[0]? = some first ∧ s3 = s2 := by
    unfold Run.index at foremost
    cases here : parents[0]? with
    | none =>
      rw [here] at foremost
      cases foremost
    | some item =>
      rw [here] at foremost
      cases foremost
      exact ⟨rfl, rfl⟩
  obtain ⟨here, rfl⟩ := at_
  have parsed : stmtOps stmt.payload = .ok ops ∧ s5 = s4 := by
    cases parsed : stmtOps stmt.payload with
    | error error =>
      rw [parsed] at payload
      cases payload
    | ok found =>
      rw [parsed] at payload
      cases payload
      exact ⟨rfl, rfl⟩
  obtain ⟨parsed, rfl⟩ := parsed
  rw [loadSchema_apply] at known
  have schemaKnown : SchemaRegistry.schemaAt s6.world.fs s6.repo.path = .ok schema
      ∧ s7 = s6 := by
    cases read : SchemaRegistry.schemaAt s6.world.fs s6.repo.path with
    | error error =>
      rw [read] at known
      cases known
    | ok found =>
      rw [read] at known
      cases known
      exact ⟨rfl, rfl⟩
  obtain ⟨schemaKnown, rfl⟩ := schemaKnown
  have looked := loadCommit_looks first s3
  have wrote := applyHamtOps_calls fuel
    (if base.rootHamt = Hash.zero then none else some base.rootHamt) ops s5
  have further : Calls s7 s10 := by
    have trees (root : Hash) := calls_of_looks (hamtEntries_looks fuel root)
    have atOld := docOf_within calls_frame trees base.rootHamt s7
    have atNew := docOf_within calls_frame trees newRoot s8
    have atIndex := updateIndexesForCommit_within calls_frame (indexPut_calls fuel)
      (indexRemove_calls fuel) schema oldDoc newDoc base.indexRoots s9
    rw [old] at atOld
    rw [new] at atNew
    rw [Run.mapErr_eq_ok.mp index] at atIndex
    exact calls_frame.trans atOld (calls_frame.trans atNew atIndex)
  rw [show loadCommit first s3 = _ from Run.mapErr_eq_ok.mp load] at looked
  rw [Run.mapErr_eq_ok.mp apply] at wrote
  exact .intro current found resolved here (Run.mapErr_eq_ok.mp load) parsed
    (Run.mapErr_eq_ok.mp apply) schemaKnown old new (Run.mapErr_eq_ok.mp index)
    (calls_frame.trans looked.calls wrote) further (Run.mapErr_eq_ok.mp write)

variable {name : String}

omit [Blake3] in
/-- The branch a merge moves is the one it was given, or HEAD's. -/
theorem mergeBranch_eq_ok {target : TargetRef}
    (named : mergeBranch target store = .ok name last)
    : target = .branch name ∨ (target = .head ∧ store.repo.head = some name) := by
  cases target with
  | branch other =>
    cases named
    exact .inl rfl
  | head =>
    obtain ⟨head, middle, read, named⟩ := Run.bind_eq_ok.mp named
    cases named
    exact .inr ⟨rfl, (headBranch_eq_ok read).2.1⟩
  | commit hex => cases named
  | tag other => cases named

-- Changes of refs

/-- The change of a ref that a statement comes to, and the state in which it makes it. -/
inductive Moves (fuel : Nat) (store : DiskStore)
    : Statement → String → Repo.RefOp → DiskStore → Prop where
  | commit {stmt : CommitStmt} {head : Branch} {hash : Hash} {middle : DiskStore}
      (made : commitObjects fuel stmt store = .ok (head, hash) middle)
      : Moves fuel store (.version (.commit stmt)) head.name (.update hash) middle
  | create {name : String} {start : Option TargetRef} {target : Hash}
      (found : resolveTargetRef (start.getD .head) store = .ok target store)
      : Moves fuel store (.version (.branch (.create name start))) name (.create target) store
  | delete {name : String}
      : Moves fuel store (.version (.branch (.delete name))) name .delete store
  | merge {stmt : MergeStmt} {source into : Hash} {name : String} {middle : DiskStore}
      (fromSource : resolveTargetRef stmt.source store = .ok source store)
      (fromInto : resolveTargetRef stmt.into store = .ok into store)
      (named : mergeBranch stmt.into store = .ok name store)
      (forward : isAncestor fuel into source store = .ok true middle)
      : Moves fuel store (.version (.merge stmt)) name (.update source) middle

/-- How a statement that returns leaves the store. -/
inductive Done (fuel : Nat) (store : DiskStore) (stmt : Statement) (last : DiskStore) : Prop where
  | looked (looks : Looks store last)
  | moved {name : String} {op : Repo.RefOp} {middle : DiskStore}
      (moves : Moves fuel store stmt name op middle) (changed : refOp name op middle = .ok () last)
  | headed {name : String} {branch : Branch} (checkout : stmt = .version (.checkout (.branch name)))
      (set_ : setHead name store = .ok () last)
      (read : last.repo.branchAt last.world.fs name = .ok branch)

/-- How a statement that does not return leaves the store. -/
inductive Stopped (fuel : Nat) (store : DiskStore) (stmt : Statement) (reason : Fault ExecError)
    (last : DiskStore) : Prop where
  | early (calls : Calls store last)
  | refused {name : String} {op : Repo.RefOp} (moves : Moves fuel store stmt name op last)
  | moving {name : String} {op : Repo.RefOp} {middle : DiskStore} {fault : Fault EpochsError}
      (moves : Moves fuel store stmt name op middle)
      (failed : refOp name op middle = .error fault last) (same : reason = fault.map .store)
  | heading {name : String} {fault : Fault EpochsError}
      (checkout : stmt = .version (.checkout (.branch name)))
      (failed : setHead name store = .error fault last) (same : reason = fault.map .store)
  | headed {name : String} {error : EpochsError}
      (checkout : stmt = .version (.checkout (.branch name)))
      (set_ : setHead name store = .ok () last)
      (unread : last.repo.branchAt last.world.fs name = .error error)
      (same : reason = .err (.store error))

/-- The states a statement can leave, whether or not it returns. -/
inductive Leaves (fuel : Nat) (store : DiskStore) (stmt : Statement) : DiskStore → Prop where
  | early {last : DiskStore} (calls : Calls store last) : Leaves fuel store stmt last
  | refused {name : String} {op : Repo.RefOp} {last : DiskStore}
      (moves : Moves fuel store stmt name op last)
      : Leaves fuel store stmt last
  | moved {name : String} {op : Repo.RefOp} {middle : DiskStore}
      (moves : Moves fuel store stmt name op middle)
      : Leaves fuel store stmt (Run.stateOf (refOp name op middle))
  | pointed {name : String} (checkout : stmt = .version (.checkout (.branch name)))
      : Leaves fuel store stmt (Run.stateOf (setHead name store))

variable {stmt : Statement}

theorem Moves.serves {op : Repo.RefOp}
    (moves : Moves fuel store stmt name op middle)
    : Serves store middle := by
  cases moves with
  | @commit stmt head hash middle made =>
    have serves := commitObjects_serves fuel stmt store
    rwa [made] at serves
  | create found => exact serves_frame.refl store
  | delete => exact serves_frame.refl store
  | @merge stmt source into name middle fromSource fromInto named forward =>
    have looks := (isAncestor_within looks_frame loadCommit_looks fuel into source).of_ok forward
    exact looks.calls.toServes

/-- A statement that only reads. -/
theorem reads_meets {α : Type} {run : Exec α} (looks : Run.Within Looks run)
    : Run.Meets (fun _ last => Done fuel store stmt last)
        (fun reason last => Stopped fuel store stmt reason last) (run store) := by
  have looks := looks store
  cases ran : run store with
  | ok value last =>
    rw [ran] at looks
    exact .looked looks
  | error reason last =>
    rw [ran] at looks
    exact .early looks.calls

/-- The end of a statement that changes a ref. -/
theorem move_meets {α : Type} {op : Repo.RefOp}
    {run : Run EpochsError DiskStore Unit} (result : α)
    (moves : Moves fuel store stmt name op middle)
    (runs : run middle = refOp name op middle
      ∨ ∃ fault, run middle = .error fault middle)
    : Run.Meets (fun _ last => Done fuel store stmt last)
        (fun reason last => Stopped fuel store stmt reason last)
        ((do
          lift run
          pure result : Exec α) middle) := by
  rw [Run.bind_apply, lift, Run.mapErr_apply]
  rcases runs with same | ⟨fault, failed⟩
  · rw [same]
    cases changed : refOp name op middle with
    | ok value last => exact .moved moves changed
    | error fault last => exact .moving moves changed rfl
  · rw [failed]
    exact .refused moves

omit [Blake3] in
theorem updateBranch_cases (name : String) (target : Hash) (store : DiskStore)
    : updateBranch name target store = refOp name (.update target) store
      ∨ ∃ fault, updateBranch name target store = .error fault store := by
  rw [updateBranch_eq, contains, bind_assoc, Run.get_bind_apply]
  rw [pure_bind]
  split
  · exact .inr ⟨_, rfl⟩
  · exact .inl rfl

omit [Blake3] in
theorem createBranch_cases (name : String) (target : Hash) (store : DiskStore)
    : createBranch name target store = refOp name (.create target) store
      ∨ ∃ fault, createBranch name target store = .error fault store := by
  rw [createBranch_eq, contains, bind_assoc, Run.get_bind_apply]
  rw [pure_bind]
  split
  · exact .inr ⟨_, rfl⟩
  · exact .inl rfl

theorem execCommit_meets (stmt : CommitStmt)
    : Run.Meets (fun _ last => Done fuel store (.version (.commit stmt)) last)
        (fun reason last => Stopped fuel store (.version (.commit stmt)) reason last)
        (execCommit fuel stmt store) := by
  rw [execCommit, Run.bind_apply]
  cases made : commitObjects fuel stmt store with
  | error reason last => exact .early (commitObjects_halts fuel stmt _ _ _ made)
  | ok pair middle =>
    obtain ⟨head, hash⟩ := pair
    exact move_meets _ (.commit made) (updateBranch_cases _ _ _)

theorem execBranch_meets (stmt : BranchStmt)
    : Run.Meets (fun _ last => Done fuel store (.version (.branch stmt)) last)
        (fun reason last => Stopped fuel store (.version (.branch stmt)) reason last)
        (execBranch stmt store) := by
  cases stmt with
  | create name start =>
    have same := resolveTargetRef_within same_frame (start.getD .head) store
    rw [execBranch, Run.bind_apply]
    cases found : resolveTargetRef (start.getD .head) store with
    | error reason last =>
      rw [found] at same
      exact .early (same ▸ calls_frame.refl store)
    | ok target last =>
      rw [found] at same
      obtain rfl : last = store := same
      exact move_meets _ (.create found) (createBranch_cases _ _ _)
  | delete name => exact move_meets _ .delete (.inl rfl)

theorem execCheckout_meets (target : TargetRef)
    : Run.Meets (fun _ last => Done fuel store (.version (.checkout target)) last)
        (fun reason last => Stopped fuel store (.version (.checkout target)) reason last)
        (execCheckout target store) := by
  cases target with
  | branch name =>
    rw [execCheckout, Run.bind_apply, lift, Run.mapErr_apply]
    cases set_ : setHead name store with
    | error fault last => exact .heading rfl set_ rfl
    | ok value last =>
      dsimp only
      rw [Run.bind_apply, lift, Run.mapErr_apply, getBranch_apply]
      cases read : last.repo.branchAt last.world.fs name with
      | error error => exact .headed rfl set_ read rfl
      | ok branch => exact .headed rfl set_ read
  | head =>
    exact reads_meets (.bind looks_frame (headBranch_within looks_frame) fun _ =>
      .pure looks_frame _)
  | commit hex =>
    exact reads_meets (.bind looks_frame
      (lift_within (resolveHashRef_within looks_frame hex)) fun hash =>
        .bind looks_frame (getCommit_kept (.within looks_frame) loadCommit_looks hash) fun _ => .pure looks_frame _)
  | tag name => exact reads_meets (.throw looks_frame _)

theorem execMerge_meets (stmt : MergeStmt)
    : Run.Meets (fun _ last => Done fuel store (.version (.merge stmt)) last)
        (fun reason last => Stopped fuel store (.version (.merge stmt)) reason last)
        (execMerge fuel stmt store) := by
  have early {reason : Fault ExecError} {last : DiskStore} (same : last = store)
      : Stopped fuel store (.version (.merge stmt)) reason last :=
    .early (same ▸ calls_frame.refl store)
  have sameSource := resolveTargetRef_within same_frame stmt.source store
  have sameInto := resolveTargetRef_within same_frame stmt.into store
  have sameName := mergeBranch_within same_frame stmt.into store
  rw [execMerge, Run.bind_apply]
  cases fromSource : resolveTargetRef stmt.source store with
  | error reason last =>
    rw [fromSource] at sameSource
    exact early sameSource
  | ok source last =>
    rw [fromSource] at sameSource
    obtain rfl : last = store := sameSource
    dsimp only
    rw [Run.bind_apply]
    cases fromInto : resolveTargetRef stmt.into last with
    | error reason next =>
      rw [fromInto] at sameInto
      exact early sameInto
    | ok into next =>
      rw [fromInto] at sameInto
      obtain rfl : next = last := sameInto
      dsimp only
      rw [Run.bind_apply]
      cases named : mergeBranch stmt.into next with
      | error reason final =>
        rw [named] at sameName
        exact early sameName
      | ok name final =>
        rw [named] at sameName
        obtain rfl : final = next := sameName
        dsimp only
        cases stmt.strategy with
        | threeWay => exact early rfl
        | squash => exact early rfl
        | fastForward =>
          have looks := isAncestor_within looks_frame loadCommit_looks fuel into source final
          dsimp only
          rw [Run.bind_apply, lift, Run.mapErr_apply]
          cases forward : isAncestor fuel into source final with
          | error fault middle =>
            rw [forward] at looks
            exact .early looks.calls
          | ok truth middle =>
            rw [forward] at looks
            cases truth with
            | false => exact .early looks.calls
            | true =>
              exact move_meets _ (.merge fromSource fromInto named forward)
                (updateBranch_cases _ _ _)

/-- What a statement does to the refs. -/
theorem executeStatement_meets [HashSeed] (stmt : Statement)
    : Run.Meets (fun _ last => Done fuel store stmt last)
        (fun reason last => Stopped fuel store stmt reason last)
        (executeStatement fuel stmt store) := by
  cases stmt with
  | query query =>
    exact reads_meets (.bind looks_frame
      (execQuery_within looks_frame loadCommit_looks (hamtEntries_looks fuel) query) fun _ =>
        .pure looks_frame _)
  | version stmt =>
    have result {run : Exec MutationResult} (meets : Run.Meets
          (fun _ last => Done fuel store (.version stmt) last)
          (fun reason last => Stopped fuel store (.version stmt) reason last) (run store))
        : Run.Meets (fun _ last => Done fuel store (.version stmt) last)
          (fun reason last => Stopped fuel store (.version stmt) reason last)
          ((do
            let result ← run
            pure (.mutation result) : Exec ExecResult) store) :=
      meets.bind fun _ _ _ done => done
    cases stmt with
    | commit stmt => exact result (execCommit_meets stmt)
    | branch stmt => exact result (execBranch_meets stmt)
    | checkout target => exact result (execCheckout_meets target)
    | merge stmt => exact result (execMerge_meets stmt)
    | diff stmt =>
      exact result (reads_meets (execDiff_within looks_frame loadCommit_looks
        (hamtEntries_looks fuel) stmt))

theorem executeStatement_leaves [HashSeed] (fuel : Nat) (store : DiskStore) (stmt : Statement)
    : Leaves fuel store stmt (Run.stateOf (executeStatement fuel stmt store)) := by
  have meets := @executeStatement_meets _ fuel store _ stmt
  have pointed {name : String} (checkout : stmt = .version (.checkout (.branch name)))
      {result : EStateM.Result (Fault EpochsError) DiskStore Unit} (ran : setHead name store = result)
      : Leaves fuel store stmt (Run.stateOf result) := ran ▸ .pointed checkout
  have moved {name : String} {op : Repo.RefOp} {middle : DiskStore}
      (moves : Moves fuel store stmt name op middle)
      {result : EStateM.Result (Fault EpochsError) DiskStore Unit} (ran : refOp name op middle = result)
      : Leaves fuel store stmt (Run.stateOf result) := ran ▸ .moved moves
  cases ran : executeStatement fuel stmt store with
  | ok value last =>
    rw [ran] at meets
    cases meets with
    | looked looks => exact .early looks.calls
    | moved moves changed => exact moved moves changed
    | headed checkout set_ => exact pointed checkout set_
  | error reason last =>
    rw [ran] at meets
    cases meets with
    | early calls => exact .early calls
    | refused moves => exact .refused moves
    | moving moves failed => exact moved moves failed
    | heading checkout failed => exact pointed checkout failed
    | headed checkout set_ => exact pointed checkout set_

end Epochs.Ql.Engine
