import Epochs.Ql.Housed
import Epochs.Store.Upright

/-! Statements that fail. They leave every ref and HEAD, whatever the names, but for a checkout
of a path that exists and is no ref, which points HEAD there before it reads it. Objects are at
most added.
-/

namespace Epochs.Ql.Engine

open Lib DiskStore Run

variable [Blake3] {store before after : DiskStore} {name : String}

/-- HEAD in memory and every file but the store's own, so all refs and the file of HEAD, are the
same in two states.
-/
structure SameRefs (before after : DiskStore) : Prop where
  repo : after.repo = before.repo
  files : ∀ path, ¬ CasDisk.Owned before.repo.path path
    → after.world.fs.fileAt path = before.world.fs.fileAt path

/-- Every index entry of the store is still there, and every file of it still begins with the
bytes it had.
-/
structure Grown (before after : DiskStore) : Prop where
  found : ∀ hash entry, before.cas.store.cas.index.find hash = some entry
    → after.cas.store.cas.index.find hash = some entry
  files : ∀ path bytes, CasDisk.Owned before.repo.path path
    → before.world.fs.fileAt path = some bytes
    → ∃ more, after.world.fs.fileAt path = some (bytes ++ more)

/-- HEAD is not at a name yet and can be pointed there, but the path of the name, which exists,
does not read as a ref, or is the file of HEAD.
-/
structure Misdirects (store : DiskStore) (name : String) : Prop where
  present : World.present store.world.fs (store.repo.branchRefPath name) = true
  unread : (∃ error, store.repo.branchAt store.world.fs name = .error error)
    ∨ World.resolve store.world.fs (store.repo.branchRefPath name)
      = .ok (Repo.headPath store.repo.path)
  writable : ∃ path, World.resolve store.world.fs (Repo.headPath store.repo.path) = .ok path
    ∧ store.world.fs.node path ≠ some .dir
  elsewhere : store.repo.head ≠ some name
    ∨ store.world.fs.fileAt (Repo.headPath store.repo.path) ≠ some (Repo.headText name)

-- Pointing HEAD at a name

omit [Blake3] in
/-- HEAD is pointed at a name exactly when its path exists and the file of HEAD can be written. -/
theorem setHead_cases (upright : store.Upright) (name : String)
    : Meets
        (fun _ next => next.repo = { store.repo with head := some name }
          ∧ next.cas.store.cas = store.cas.store.cas ∧ next.cas.handed = store.cas.handed
          ∧ World.present store.world.fs (store.repo.branchRefPath name) = true
          ∧ (∃ path, World.resolve store.world.fs (Repo.headPath store.repo.path) = .ok path
            ∧ store.world.fs.node path ≠ some .dir)
          ∧ FileSystem.Alters (Repo.headPath store.repo.path) store.world.fs next.world.fs
          ∧ next.world.fs.fileAt (Repo.headPath store.repo.path) = some (Repo.headText name))
        (fun reason next => ∀ error, reason = .err error
          → next = store
            ∧ ¬ (World.present store.world.fs (store.repo.branchRefPath name) = true
              ∧ ∃ path, World.resolve store.world.fs (Repo.headPath store.repo.path) = .ok path
                ∧ store.world.fs.node path ≠ some .dir))
        (setHead name store) := by
  rw [setHead, get_bind_apply]
  rw [bind_apply, onWorld, zoom, Repo.setHead,
    bind_of_ok (Repo.refExists_apply store.repo name store.world)]
  cases present : World.present store.world.fs (store.repo.branchRefPath name) with
  | false => exact fun _ _ => ⟨rfl, fun both => by cases both.1⟩
  | true =>
    have writes := World.writeFile_meets (Repo.headPath store.repo.path) (Repo.headText name)
      store.world
    have writable := World.writeFile_writable (Repo.headPath store.repo.path) (Repo.headText name)
      store.world
    simp only [Bool.not_true, Bool.false_eq_true, if_false]
    rw [bind_apply, show Utf8.encode s!"ref: refs/heads/{name}\n" = Repo.headText name from rfl]
    cases ran : World.writeFile (Repo.headPath store.repo.path) (Repo.headText name)
        store.world with
    | ok value world =>
      rw [ran] at writes writable
      obtain ⟨path, resolved, alters, -, written⟩ := writes
      obtain rfl := (Repo.headPath_of_resolve upright.plain resolved).1
      exact ⟨rfl, rfl, rfl, trivial, writable, alters, written⟩
    | error reason world =>
      rw [ran] at writes writable
      intro error same
      refine ⟨?_, ?_⟩
      · rcases writes with ⟨-, rfl⟩ | ⟨killed, -⟩
        · rfl
        · cases killed.1.symm.trans same
      · intro blocked
        obtain ⟨_, path, resolved, notDir⟩ := blocked
        exact notDir (writable error same path resolved)

-- Steps

theorem sameRefs_of_serves (upright : before.Upright) (serves : Serves before after)
    : SameRefs before after := by
  have home := upright.home
  exact ⟨serves.repo, fun path other =>
    (serves.objects.spares.elsewhere upright.anchored path (home ▸ other)).2⟩

theorem grown_of_serves (upright : before.Upright) (serves : Serves before after)
    : Grown before after := by
  have gains := serves.objects.effects.gains
  refine ⟨gains.found, fun path bytes _ held => ?_⟩
  rw [FileSystem.fileAt, Option.map_eq_some_iff] at held
  obtain ⟨inode, found, rfl⟩ := held
  obtain ⟨still, more, longer⟩ := gains.files upright.anchored.formed path inode found
  refine ⟨more, ?_⟩
  rw [FileSystem.fileAt, show after.world.fs.inodeAt path = _ from still, Option.map_some]
  exact congrArg some longer.symm

omit [Blake3] in
/-- A change of a ref that fails changes no file. -/
theorem refOp_of_err {op : Repo.RefOp} {error : EpochsError}
    (failed : refOp name op before = .error (.err error) after)
    : after.repo = before.repo ∧ after.cas.store.cas = before.cas.store.cas
      ∧ ∀ path, after.world.fs.fileAt path = before.world.fs.fileAt path := by
  rw [refOp_apply] at failed
  cases ran : op.run before.repo name before.world with
  | ok value world =>
    rw [ran] at failed
    cases failed
  | error fault world =>
    rw [ran] at failed
    cases failed
    exact ⟨rfl, rfl, Repo.RefOp.files_of_err ran⟩

variable {fuel : Nat} {error : ExecError}

/-- A checkout of a branch fails before HEAD is pointed there, or when the ref is read then. -/
theorem checkout_of_err [HashSeed]
    (failed : executeStatement fuel (.version (.checkout (.branch name))) before
      = .error (.err error) after)
    : (∃ reason, setHead name before = .error (.err reason) after)
      ∨ (setHead name before = .ok () after
        ∧ ∃ reason, after.repo.branchAt after.world.fs name = .error reason) := by
  rw [executeStatement, execVersion, bind_apply, execCheckout, bind_apply, lift,
    mapErr_apply] at failed
  cases set_ : setHead name before with
  | error fault next =>
    rw [set_] at failed
    cases fault with
    | err reason =>
      cases failed
      exact .inl ⟨reason, rfl⟩
    | panic | killed | fuel => cases failed
  | ok value next =>
    rw [set_] at failed
    dsimp only at failed
    rw [bind_apply, lift, mapErr_apply, getBranch_apply] at failed
    cases read : next.repo.branchAt next.world.fs name with
    | ok branch =>
      rw [read] at failed
      cases failed
    | error reason =>
      rw [read] at failed
      cases failed
      exact .inr ⟨rfl, reason, read⟩

/-- A misdirected checkout that fails has moved HEAD. -/
theorem Misdirects.changes [HashSeed] (misdirects : Misdirects before name)
    (upright : before.Upright)
    (failed : executeStatement fuel (.version (.checkout (.branch name))) before
      = .error (.err error) after)
    : ¬ SameRefs before after := by
  intro same
  have meets := setHead_cases upright name
  rcases checkout_of_err failed with ⟨reason, refused⟩ | ⟨set_, -⟩
  · rw [refused] at meets
    exact (meets reason rfl).2 ⟨misdirects.present, misdirects.writable⟩
  · rw [set_] at meets
    obtain ⟨repo, -, -, -, -, -, written⟩ := meets
    rcases misdirects.elsewhere with other | other
    · refine other ?_
      rw [← same.repo, repo]
    · refine other ?_
      rw [← same.files _ before.repo.aside_headPath.not_owned, written]

omit [Blake3] in
/-- HEAD that was pointed at a name it cannot be read at. -/
theorem sameRefs_of_headed (upright : before.Upright) {reason : EpochsError}
    (set_ : setHead name before = .ok () after)
    (unread : after.repo.branchAt after.world.fs name = .error reason)
    (directed : ¬ Misdirects before name)
    : SameRefs before after := by
  obtain ⟨repo, -, -, present, writable, alters, written⟩ := (setHead_cases upright name).of_ok set_
  have lost : (∃ error, before.repo.branchAt before.world.fs name = .error error)
      ∨ World.resolve before.world.fs (before.repo.branchRefPath name)
        = .ok (Repo.headPath before.repo.path) := by
    cases resolved : World.resolve before.world.fs (before.repo.branchRefPath name) with
    | error error => simp [World.present, resolved] at present
    | ok path =>
      by_cases own : path = Repo.headPath before.repo.path
      · exact .inr (own ▸ rfl)
      · have stands : before.world.fs.node path ≠ none := by
          intro absent
          simp [World.present, resolved, absent] at present
        have same := Repo.branchAt_of_other upright.anchored.formed alters resolved stands own
        rw [repo] at unread
        exact .inl ⟨reason, same.symm.trans unread⟩
  -- HEAD was there already, so that writing it again changed nothing.
  have kept : before.repo.head = some name
      ∧ before.world.fs.fileAt (Repo.headPath before.repo.path) = some (Repo.headText name) := by
    constructor
    · by_contra other
      exact directed ⟨present, lost, writable, .inl other⟩
    · by_contra other
      exact directed ⟨present, lost, writable, .inr other⟩
  refine ⟨by rw [repo, ← kept.1], fun path _ => ?_⟩
  by_cases own : path = Repo.headPath before.repo.path
  · rw [own, written, kept.2]
  · exact alters.fileAt upright.anchored.formed own

/-- What a statement that fails leaves of refs and objects. -/
theorem failed_cases [HashSeed] (upright : before.Upright) {stmt : Statement}
    (failed : executeStatement fuel stmt before = .error (.err error) after)
    : ((¬ ∃ name, stmt = .version (.checkout (.branch name)) ∧ Misdirects before name)
        → SameRefs before after)
      ∧ Grown before after := by
  have meets := (@executeStatement_meets _ fuel before _ stmt).of_error failed
  cases meets with
  | early calls =>
    exact ⟨fun _ => sameRefs_of_serves upright calls.toServes,
      grown_of_serves upright calls.toServes⟩
  | refused moves =>
    exact ⟨fun _ => sameRefs_of_serves upright moves.serves,
      grown_of_serves upright moves.serves⟩
  | @moving name op middle fault moves failed same =>
    cases fault with
    | err reason =>
      obtain ⟨repo, cas, files⟩ := refOp_of_err failed
      have kept := sameRefs_of_serves upright moves.serves
      have grown := grown_of_serves upright moves.serves
      refine ⟨fun _ => ⟨repo.trans kept.repo, fun path other => ?_⟩, ?_, ?_⟩
      · rw [files path, kept.files path other]
      · rw [cas]
        exact grown.found
      · intro path bytes owned held
        rw [files path]
        exact grown.files path bytes owned held
    | panic | killed | fuel => cases same
  | @heading name fault checkout failed same =>
    cases fault with
    | err reason =>
      have meets := (setHead_cases upright name).of_error failed
      obtain ⟨rfl, -⟩ := meets reason rfl
      exact ⟨fun _ => ⟨rfl, fun _ _ => rfl⟩, fun _ _ found => found,
        fun _ bytes _ held => ⟨[], by rw [held, List.append_nil]⟩⟩
    | panic | killed | fuel => cases same
  | @headed name reason checkout set_ unread same =>
    refine ⟨fun directed => sameRefs_of_headed upright set_ unread fun misdirects =>
      directed ⟨name, checkout, misdirects⟩, ?_⟩
    obtain ⟨-, cas, -, -, -, alters, -⟩ := (setHead_cases upright name).of_ok set_
    refine ⟨fun hash entry found => by rw [cas]; exact found, fun path bytes owned held => ?_⟩
    refine ⟨[], ?_⟩
    rw [alters.fileAt upright.anchored.formed, held, List.append_nil]
    rintro rfl
    exact before.repo.aside_headPath.not_owned owned

-- Runs

theorem upright_after [HashSeed] (upright : store.Upright) (fuel : Nat) (call : Call)
    : (call.after fuel store).Upright := by
  cases call with
  | reopen => exact reopen_upright store upright
  | statement stmt =>
    have leaves := executeStatement_leaves fuel store stmt
    rw [Call.after]
    generalize stateOf (executeStatement fuel stmt store) = last at leaves ⊢
    cases leaves with
    | early calls => exact upright.serves calls.toServes
    | refused moves => exact upright.serves moves.serves
    | @moved name op middle moves => exact (upright.serves moves.serves).refOp name op
    | @pointed name checkout => exact upright.setHead name

theorem Reaches.upright [HashSeed] {allowed : DiskStore → Call → Prop}
    (reaches : Reaches allowed before after) (upright : before.Upright)
    : after.Upright := by
  induction reaches with
  | refl => exact upright
  | tail _ call ih =>
    obtain ⟨fuel, call, -, rfl⟩ := call
    exact upright_after ih fuel call

/-- In every state reached from a new repository, by whatever calls and with whatever names, a
statement that fails leaves all refs and HEAD, unless it is a misdirected checkout. The store's
index and files at most grow, and when names stayed below the directory of refs and payloads fit,
every object is still held.
-/
theorem failed_statement_keeps [HashSeed] {path : Path} {branch message : String} {genesis : Hash}
    {world opened : World} {fuel : Nat} {stmt : VersionStatement} {error : ExecError}
    (plain : ∀ part ∈ path, part ≠ "" ∧ part ≠ "." ∧ part ≠ "..")
    (formed : world.fs.WellFormed)
    (initialised : DiskStore.init path branch message world = .ok (store, genesis) opened)
    (reaches : Reaches (fun _ _ => True) store before)
    (failed : executeStatement fuel (.version stmt) before = .error (.err error) after)
    : (SameRefs before after
        ↔ ¬ ∃ name, stmt = .checkout (.branch name) ∧ Misdirects before name)
      ∧ Grown before after
      ∧ (world.deadline = none → Repo.Unused world.fs path
        → Repo.Below branch → Repo.Trimmed branch → Reaches Tame store before
        → Tame before (.statement (.version stmt)) → Traced.Roomy after.cas.handed
        → before.view.Extends after.view) := by
  have upright := reaches.upright (init_upright plain formed initialised)
  obtain ⟨kept, grown⟩ := failed_cases upright failed
  refine ⟨⟨?_, fun directed => kept ?_⟩, grown, ?_⟩
  · rintro same ⟨name, rfl, misdirects⟩
    exact misdirects.changes upright failed same
  · rintro ⟨name, checkout, misdirects⟩
    exact directed ⟨name, Statement.version.inj checkout, misdirects⟩
  · intro alive unused below trimmed reaches tame roomy
    have last : after = Call.after fuel before (.statement (.version stmt)) := by
      rw [Call.after, failed]
      rfl
    rw [last] at roomy ⊢
    obtain ⟨name, housed⟩ := reaches.housed plain formed alive unused below trimmed initialised
      (roomy.of_prefix (Call.grows fuel _ before))
    exact housed.extends_ fuel tame roomy

end Epochs.Ql.Engine

namespace Epochs.Ql.Engine

open Lib DiskStore Run

attribute [local instance] Blake3.linked insertionOrder

/-- A branch that is there already is not created again. -/
theorem failed_statement_keeps_created
    : ∃ error, executeStatement 8 (.version (.branch (.create "main" none))) sample
        = .error (.err error)
          (Run.stateOf (executeStatement 8 (.version (.branch (.create "main" none))) sample))
      ∧ SameRefs sample
          (Run.stateOf (executeStatement 8 (.version (.branch (.create "main" none))) sample)) := by
  have fails : (Run.errorOf
      (executeStatement 8 (.version (.branch (.create "main" none))) sample)).isSome = true := by
    decide +kernel
  obtain ⟨error, found⟩ := Option.isSome_iff_exists.mp fails
  have failed := Run.eq_error_of_errorOf found
  refine ⟨error, failed, ?_⟩
  refine (failed_statement_keeps (by decide) FileSystem.wellFormed_empty init_sample .refl
    failed).1.mpr ?_
  rintro ⟨name, checkout, -⟩
  cases checkout

/-- A checkout of the directory that a nested name made fails, and HEAD is at it, in memory and
in its file.
-/
theorem failed_checkout_moves_head
    : let before := Run.stateOf (execute 8 "CREATE BRANCH \"a/b\";" sample)
      let result := executeStatement 8 (.version (.checkout (.branch "a"))) before
      (Run.errorOf result).isSome = true
      ∧ before.repo.head = some "main" ∧ (Run.stateOf result).repo.head = some "a"
      ∧ before.world.fs.fileAt ["r", "HEAD"] = some (Repo.headText "main")
      ∧ (Run.stateOf result).world.fs.fileAt ["r", "HEAD"] = some (Repo.headText "a") := by
  decide +kernel

end Epochs.Ql.Engine
