import Epochs.Disk.Folders
import Epochs.Store.Start

/-! What holds whatever names are used: the open files of the store stay its own, so that storing
objects leaves all refs and HEAD, and a change of a ref that fails changes no file.
-/

namespace Epochs

open Lib Run World

-- Files keep their numbers

namespace World

/-- A change and what follows it. -/
theorem change_bind_numbers {α : Type} {update : FileSystem → FileSystem} {world : World}
    {next : Unit → Run EpochsError World α} (numbers : world.fs.Numbers (update world.fs))
    (within : Within Numbers (next ()))
    : Numbers world (stateOf ((change update >>= next) world)) := by
  have first := change_numbers numbers
  rw [bind_apply]
  cases ran : change update world with
  | ok value middle =>
    rw [ran] at first
    exact numbers_frame.trans first (within middle)
  | error reason middle =>
    rw [ran] at first
    exact first

theorem createDirsBelow_numbers (base rest : Path)
    : Within Numbers (createDirsBelow base rest) := by
  induction rest generalizing base with
  | nil => exact .pure numbers_frame ()
  | cons name rest ih =>
    refine .get_bind fun world => ?_
    cases found : world.fs.node (base ++ [name]) with
    | some node =>
      cases node with
      | dir => exact ih _ world
      | file inode => exact numbers_frame.refl world
    | none => exact change_bind_numbers (.of_mkdir found) (ih _)

theorem makeDirs_numbers (base : Path) (parts : List String)
    : Within Numbers (makeDirs base parts) := by
  induction parts generalizing base with
  | nil => exact .pure numbers_frame ()
  | cons part rest ih =>
    rw [makeDirs]
    split
    · exact ih base
    · split
      · exact ih base.dropLast
      · split
        · exact .throw numbers_frame _
        · refine .get_bind fun world => ?_
          cases found : world.fs.node (base ++ [part]) with
          | some node =>
            cases node with
            | dir => exact ih _ world
            | file inode => exact numbers_frame.refl world
          | none => exact change_bind_numbers (.of_mkdir found) (ih _)

theorem createDirs_numbers (parts : List String) : Within Numbers (createDirs parts) := by
  unfold createDirs
  split
  · exact .throw numbers_frame _
  · split
    · exact .throw numbers_frame _
    · exact makeDirs_numbers [] parts

theorem writeFile_numbers (parts : List String) (bytes : Bytes)
    : Within Numbers (writeFile parts bytes) := by
  refine .get_bind fun world => ?_
  cases resolve world.fs parts with
  | error error => exact numbers_frame.refl world
  | ok path =>
    dsimp only
    cases found : world.fs.node path with
    | none => exact change_bind_numbers (.of_create found) (append_numbers _ _)
    | some node =>
      cases node with
      | dir => exact numbers_frame.refl world
      | file inode =>
        exact change_bind_numbers (.of_setContent inode []) (append_numbers _ _)

theorem removeFile_numbers (parts : List String) : Within Numbers (removeFile parts) := by
  refine .get_bind fun world => ?_
  cases resolve world.fs parts with
  | error error => exact numbers_frame.refl world
  | ok path =>
    dsimp only
    cases found : world.fs.node path with
    | none => exact numbers_frame.refl world
    | some node =>
      cases node with
      | dir => exact numbers_frame.refl world
      | file inode =>
        exact change_numbers (.of_unlink (FileSystem.inodeAt_eq_some.mpr found))

end World

namespace CasStore

theorem open_numbers (path : Path) : Within Numbers (open_ path) := by
  have frame := numbers_frame
  refine .bind frame (createDirsBelow_numbers [] _) fun _ => .bind frame ?_ fun index =>
    .bind frame (.get frame) fun world =>
      .bind frame (CasDisk.openOrCreateSegment_numbers _ _) fun _ => .pure frame _
  exact .bind frame (createDirsBelow_numbers [] _) fun _ =>
    .bind frame (openAppend_numbers _) fun file =>
      .bind frame (.get frame) fun _ => .bind frame (.ofExcept frame _) fun _ => .pure frame _

end CasStore

namespace Repo

variable {repo : Repo} {name : String} {world : World}

theorem writeBranch_numbers (target : Hash)
    : Within Numbers (repo.writeBranch name target) := by
  have frame := numbers_frame
  refine .bind frame ?_ fun _ => writeFile_numbers _ _
  unfold createParents
  split
  · exact createDirs_numbers _
  · exact .pure frame _

theorem RefOp.run_numbers (op : RefOp) : Within Numbers (op.run repo name) := by
  intro world
  cases op with
  | create target =>
    rw [RefOp.run, createBranch, bind_of_ok (refExists_apply repo name world)]
    split
    · exact numbers_frame.refl world
    · exact writeBranch_numbers target world
  | update target =>
    rw [RefOp.run, updateBranch, bind_of_ok (refExists_apply repo name world)]
    split
    · exact numbers_frame.refl world
    · exact writeBranch_numbers target world
  | delete =>
    rw [RefOp.run, deleteBranch]
    split
    · exact numbers_frame.refl world
    · rw [bind_of_ok (refExists_apply repo name world)]
      split
      · exact numbers_frame.refl world
      · exact removeFile_numbers _ world

theorem setHead_numbers : Within Numbers (repo.setHead name) := by
  intro world
  rw [setHead, bind_of_ok (refExists_apply repo name world)]
  split
  · exact numbers_frame.refl world
  · exact Within.bind numbers_frame (writeFile_numbers _ _)
      (fun _ => .pure numbers_frame _) world

theorem init_numbers (path : Path) : Within Numbers (init path) := by
  have frame := numbers_frame
  refine .bind frame (createDirsBelow_numbers [] _) fun _ =>
    .bind frame (createDirsBelow_numbers [] _) fun _ => .bind frame ?_ fun found => ?_
  · intro world
    rw [exists_apply]
    exact frame.refl world
  · dsimp only
    split
    · exact .bind frame (writeFile_numbers _ _) fun _ => .pure frame _
    · exact .pure frame _

/-- Opening a repository reads its files. -/
theorem open_apply (path : Path) (world : World)
    : ∃ result, open_ path world = ofExcept result world
        ∧ ∀ repo, result = .ok repo → repo.path = path := by
  rw [open_, bind_of_ok (exists_apply _ world)]
  split
  · exact ⟨.error _, rfl, fun _ same => by cases same⟩
  · rw [bind_apply, readHead_apply]
    cases headAt world.fs path with
    | error error => exact ⟨.error error, rfl, fun _ same => by cases same⟩
    | ok head => exact ⟨.ok { path, head }, rfl, fun _ same => by cases same; rfl⟩

-- Failing changes of refs

theorem writeBranch_of_err {target : Hash} {next : World} {error : EpochsError}
    (failed : repo.writeBranch name target world = .error (.err error) next) (path : Path)
    : next.fs.fileAt path = world.fs.fileAt path := by
  have parents : Meets
      (fun _ next => FileSystem.AddsDirs (fun _ => True) world.fs next.fs)
      (fun _ next => FileSystem.AddsDirs (fun _ => True) world.fs next.fs)
      (createParents (repo.branchRefPath name) world) := by
    unfold createParents
    cases parent (repo.branchRefPath name) with
    | none => exact FileSystem.AddsDirs.refl _ _
    | some parent =>
      exact (createDirs_meets _ world fun _ _ => trivial).imp (fun _ _ made => made.1)
        fun _ _ made => made.1
  rw [writeBranch, bind_apply] at failed
  cases made : createParents (repo.branchRefPath name) world with
  | error reason middle =>
    rw [made] at failed parents
    cases failed
    exact parents.fileAt path
  | ok value middle =>
    rw [made] at failed parents
    have writes := writeFile_meets (repo.branchRefPath name) (refText target) middle
    rw [show writeFile (repo.branchRefPath name) (refText target) middle = _ from failed]
      at writes
    rcases writes with ⟨-, rfl⟩ | ⟨killed, -⟩
    · exact parents.fileAt path
    · cases killed.1

/-- A change of a ref that fails changes no file, whatever the name. -/
theorem RefOp.files_of_err {op : RefOp} {next : World} {error : EpochsError}
    (failed : op.run repo name world = .error (.err error) next) (path : Path)
    : next.fs.fileAt path = world.fs.fileAt path := by
  cases op with
  | create target =>
    rw [RefOp.run, createBranch, bind_of_ok (refExists_apply repo name world)] at failed
    split at failed
    · cases failed
      rfl
    · exact writeBranch_of_err failed path
  | update target =>
    rw [RefOp.run, updateBranch, bind_of_ok (refExists_apply repo name world)] at failed
    split at failed
    · cases failed
      rfl
    · exact writeBranch_of_err failed path
  | delete =>
    rw [RefOp.run, deleteBranch] at failed
    split at failed
    · cases failed
      rfl
    · rw [bind_of_ok (refExists_apply repo name world)] at failed
      split at failed
      · cases failed
        rfl
      · have removes := (removeFile_meets (repo.branchRefPath name) world).of_error failed
        rcases removes with ⟨-, rfl⟩ | ⟨killed, -⟩
        · rfl
        · cases killed.1

/-- What a ref says that is not in the file that changed. -/
theorem branchAt_of_other {fs next : FileSystem} {target path : Path}
    (formed : fs.WellFormed) (alters : FileSystem.Alters target fs next)
    (resolved : resolve fs (repo.branchRefPath name) = .ok path)
    (stands : fs.node path ≠ none) (other : path ≠ target)
    : repo.branchAt next name = repo.branchAt fs name := by
  have still := resolve_mono (fun _ => alters.dirs) resolved
  obtain rfl := eq_place_of_resolve resolved
  refine branchAt_congr (fun path => by rw [resolved, still]) ?_ (alters.fileAt formed other)
  rcases alters.nodes _ other with kept | ⟨absent, -, -⟩
  · exact kept
  · exact absurd absent stands

end Repo

-- Stores in any state

namespace DiskStore

variable [Blake3] {store before after : DiskStore}

/-- The open files of the store are its own, in the directory of the repository. -/
structure Upright (store : DiskStore) : Prop where
  anchored : store.cas.store.Anchored
  home : store.cas.store.cas.repoPath = store.repo.path
  plain : ∀ part ∈ store.repo.path, part ≠ "" ∧ part ≠ "." ∧ part ≠ ".."

theorem Upright.serves (upright : before.Upright) (serves : Serves before after)
    : after.Upright where
  anchored := serves.objects.spares.anchored upright.anchored
  home := by
    rw [serves.repo, ← upright.home]
    exact serves.objects.spares.repoPath
  plain := by
    rw [serves.repo]
    exact upright.plain

omit [Blake3] in
theorem Upright.of_numbers (upright : store.Upright) {world : World}
    (numbers : store.world.Numbers world)
    : (store.setWorld world).Upright :=
  ⟨upright.anchored.of_numbers numbers rfl rfl rfl, upright.home, upright.plain⟩

omit [Blake3] in
theorem Upright.refOp (upright : store.Upright) (name : String) (op : Repo.RefOp)
    : (stateOf (DiskStore.refOp name op store)).Upright := by
  have numbers := @Repo.RefOp.run_numbers store.repo name op store.world
  rw [refOp_apply]
  cases ran : op.run store.repo name store.world with
  | ok value world =>
    rw [ran] at numbers
    exact upright.of_numbers numbers
  | error fault world =>
    rw [ran] at numbers
    exact upright.of_numbers numbers

omit [Blake3] in
theorem Upright.setHead (upright : store.Upright) (name : String)
    : (stateOf (DiskStore.setHead name store)).Upright := by
  have numbers := @Repo.setHead_numbers store.repo name store.world
  have same : ∀ repo world, store.repo.setHead name store.world = .ok repo world
      → repo.path = store.repo.path := by
    intro repo world ran
    rw [Repo.setHead, bind_of_ok (Repo.refExists_apply _ name _)] at ran
    split at ran
    · cases ran
    · obtain ⟨_, _, _, ran⟩ := bind_eq_ok.mp ran
      cases ran
      rfl
  rw [DiskStore.setHead, get_bind_apply]
  rw [bind_apply, onWorld, zoom]
  cases ran : store.repo.setHead name store.world with
  | ok repo world =>
    rw [ran] at numbers
    have later := upright.of_numbers numbers
    have path := same repo world ran
    exact ⟨later.anchored, later.home.trans path.symm, fun part member =>
      upright.plain part (path ▸ member)⟩
  | error fault world =>
    rw [ran] at numbers
    exact upright.of_numbers numbers

omit [Blake3] in
/-- A store over files just opened. -/
theorem assemble_upright {world : World} {repo : Repo} {cas : CasStore} {fs : FileSystem}
    (plain : ∀ part ∈ repo.path, part ≠ "" ∧ part ≠ "." ∧ part ≠ "..")
    (opens : CasDisk.Opens fs repo.path { world, cas })
    : (assemble repo cas world).Upright := by
  have home : cas.repoPath = repo.path := opens.repoPath
  refine ⟨⟨opens.attached.formed, ?_, ?_⟩, home, plain⟩
  · exact CasDisk.held_of_inodeAt opens.attached.formed (.inl rfl) opens.attached.indexed
  · exact CasDisk.held_of_inodeAt opens.attached.formed (CasDisk.owned_segmentPathFor _ _)
      opens.attached.active

omit [Blake3] in
/-- The relation of a step that keeps a store upright. -/
theorem upright_frame : Frame fun before after : DiskStore => before.Upright → after.Upright :=
  ⟨fun _ => id, fun first second upright => second (first upright)⟩

theorem reopen_upright
    : Within (fun before after : DiskStore => before.Upright → after.Upright)
        DiskStore.reopen := by
  refine .bind upright_frame (.observe fun store upright =>
    upright.serves (flushCas_looks store).calls.toServes) fun _ => .get_bind fun store upright => ?_
  rw [bind_apply, onWorld, zoom]
  obtain ⟨result, opened, path⟩ := Repo.open_apply store.repo.path store.world
  have runs : open_ store.repo.path store.world
      = (do
        let repo ← ofExcept result
        let cas ← CasStore.open_ store.repo.path
        pure (assemble repo cas (← MonadState.get)) : Run EpochsError World DiskStore)
          store.world := by
    rw [open_, bind_apply, opened, bind_apply]
  rw [runs]
  cases result with
  | error error => exact upright
  | ok repo =>
    have numbers := CasStore.open_numbers store.repo.path store.world
    have opens := CasDisk.open_meets upright.anchored.formed store.repo.path
    rw [bind_of_ok (ofExcept_ok repo store.world), bind_apply]
    cases ran : CasStore.open_ store.repo.path store.world with
    | error fault world =>
      rw [ran] at numbers
      exact upright.of_numbers numbers
    | ok cas world =>
      rw [show CasStore.open_ store.repo.path store.cas.store.world = _ from ran] at opens
      have same := path repo rfl
      have assembled := @assemble_upright world repo cas _
        (fun part member => upright.plain part (same ▸ member)) (same ▸ opens.1)
      exact ⟨assembled.anchored, assembled.home, assembled.plain⟩

theorem initialise_upright (branch message : String)
    : Within (fun before after : DiskStore => before.Upright → after.Upright)
        (initialise branch message) := by
  have frame := upright_frame
  rw [initialise_eq]
  refine .bind frame ?_ fun genesis => .bind frame (fun _ upright => upright.refOp _ _) fun _ =>
    .bind frame (fun _ upright => upright.setHead _) fun _ => .pure frame _
  have serves : Within Serves (writeGenesis message) :=
    .bind serves_frame (fun store => (nowMillis_looks store).calls.toServes) fun now =>
      .bind serves_frame (putCommit_serves _) fun _ =>
        .bind serves_frame (fun store => (flushCas_looks store).calls.toServes) fun _ =>
          .pure serves_frame _
  exact fun store upright => upright.serves (serves store)

/-- A store just initialised, on whatever files and with whatever branch name. -/
theorem init_upright {path : Path} {branch message : String} {world last : World} {genesis : Hash}
    (plain : ∀ part ∈ path, part ≠ "" ∧ part ≠ "." ∧ part ≠ "..")
    (formed : world.fs.WellFormed)
    (ran : init path branch message world = .ok (store, genesis) last)
    : store.Upright := by
  obtain ⟨repo, first, made, ran⟩ := bind_eq_ok.mp ran
  obtain ⟨cas, second, opened, ran⟩ := bind_eq_ok.mp ran
  have numbers := (Repo.init_numbers path).of_ok made
  have repoPath : repo.path = path := by
    have meets := (Repo.init_meets plain world).of_ok made
    rw [meets.1]
  have opens := (CasDisk.open_meets (numbers.formed formed) path).of_ok opened
  have assembled := @assemble_upright second repo cas _ (repoPath ▸ plain) (repoPath ▸ opens.1)
  have kept := initialise_upright branch message (assemble repo cas second) assembled
  rw [get_bind_apply] at ran
  cases started : initialise branch message (assemble repo cas second) with
  | error fault next =>
    rw [started] at ran
    cases ran
  | ok hash next =>
    rw [started] at ran kept
    cases ran
    exact kept

end DiskStore
end Epochs
