import Epochs.Disk.Folders
import Epochs.Ql.SchemaState

/-! The migration runner. It is first modelled as the program runs it on files, then as what it
computes from the contents of the lock, the state file and the migrations.
-/

namespace Epochs.Ql

open Lib Run World

structure MigrationReport where
  applied : List String
  skipped : List String
  schema : SchemaRegistry
  deriving DecidableEq

namespace Migrate

def ioError (attempt : String) (error : EpochsError) : ParseError :=
  ParseError.new s!"{attempt}: {SchemaRegistry.ioText error}"

def extension (name : String) : Option String :=
  match name.toList.reverse.span (· ≠ '.') with
  | (after, _ :: _ :: _) => some (String.ofList after.reverse)
  | _ => none

def listMigrationFiles (dir : Path) : Run ParseError World (List String) := do
  if !(← Run.mapErr (ioError "read migrations") (World.exists_ dir)) then
    pure []
  else do
    let names ← Run.mapErr (ioError "read migrations") (World.readDir dir)
    pure ((names.filter fun name => extension name = some "eql").insertionSort (· ≤ ·))

def lockedNames (text : String) : List String :=
  ((Text.lines text).map Text.trim).filter fun line =>
    line ≠ "" ∧ !Text.startsWith line "#"

def readLock (repoPath : Path) : Run ParseError World (List String) := do
  let path := repoPath ++ ["schema.lock"]
  if !(← Run.mapErr (ioError "read schema.lock") (World.exists_ path)) then
    pure []
  else do
    let text ← Run.mapErr (ioError "read schema.lock") (World.readToString path)
    pure (lockedNames text)

def lockHeader : String := "# epochs schema.lock — applied migrations (do not edit)"

/-- The text of a lock. Names are written as they are. -/
def lockText (applied : List String) : String :=
  Text.join "" ((lockHeader ++ "\n") :: applied.map (· ++ "\n"))

def writeLock (repoPath : Path) (applied : List String) : Run ParseError World Unit :=
  Run.mapErr (ioError "write schema.lock")
    (World.writeFile (repoPath ++ ["schema.lock"]) (Utf8.encode (lockText applied)))

def save (repoPath : Path) (schema : SchemaRegistry) : Run ParseError World Unit :=
  Run.mapErr (ioError "write schema.state")
    (World.writeFile (repoPath ++ ["schema.state"]) (Utf8.encode schema.toStateFile))

structure Progress where
  lock : List String
  schema : SchemaRegistry
  applied : List String
  skipped : List String
  deriving DecidableEq

def Progress.skip (progress : Progress) (name : String) : Progress :=
  { progress with skipped := progress.skipped ++ [name] }

def Progress.apply (progress : Progress) (name source : String) : LexResult Progress := do
  let stmts ← parseMigration source
  let schema ← (progress.schema.applyStatements stmts).mapError .err
  pure { progress with
    lock := progress.lock ++ [name]
    schema
    applied := progress.applied ++ [name] }

def applyFile (dir : Path) (progress : Progress) (name : String)
    : Run ParseError World Progress :=
  if name ∈ progress.lock then
    pure (progress.skip name)
  else do
    let source ← Run.mapErr (ioError s!"read migration {name}")
      (World.readToString (dir ++ [name]))
    Run.ofOutcome (progress.apply name source)

def prepare (repoPath : Path) : Run ParseError World Progress := do
  let dir := repoPath ++ ["migrations"]
  Run.mapErr (ioError "create migrations dir") (World.createDirs dir)
  let lock ← readLock repoPath
  let schema ← SchemaRegistry.load repoPath
  let files ← listMigrationFiles dir
  files.foldlM (applyFile dir) { lock, schema, applied := [], skipped := [] }

def Progress.report (progress : Progress) : MigrationReport :=
  { applied := progress.applied, skipped := progress.skipped, schema := progress.schema }

/-- Apply all pending migrations of a repository in order, and write the lock and then the state
file.
-/
def migrate (repoPath : Path) : Run ParseError World MigrationReport := do
  let progress ← prepare repoPath
  writeLock repoPath progress.lock
  save repoPath progress.schema
  pure progress.report

/-- A process that stops after the lock is written and before the state file is. -/
def migrateStopped (repoPath : Path) : Run ParseError World Unit := do
  let progress ← prepare repoPath
  writeLock repoPath progress.lock

-- What is computed from the files

/-- What the runner finds: the lock, the state file and the migrations in the order of their
names, each as it can be read.
-/
@[ext]
structure Inputs where
  lock : Option (Except EpochsError String)
  state : Option (Except EpochsError String)
  files : List (String × Except EpochsError String)

def inputsAt (fs : FileSystem) (repoPath : Path) (place : Path) : Inputs where
  lock := World.seen fs (repoPath ++ ["schema.lock"])
  state := World.seen fs (repoPath ++ ["schema.state"])
  files :=
    (World.namesIn fs (fun name => extension name = some "eql") (place ++ ["migrations"])).map
      fun name => (name, World.textAt fs (repoPath ++ ["migrations"] ++ [name]))

namespace Inputs

def names (inputs : Inputs) : List String := inputs.files.map Prod.fst

def locked (inputs : Inputs) : Except ParseError (List String) :=
  match inputs.lock with
  | none => .ok []
  | some text => (text.mapError (ioError "read schema.lock")).map lockedNames

def schema (inputs : Inputs) : Except ParseError SchemaRegistry :=
  match inputs.state with
  | none => .ok SchemaRegistry.new
  | some text =>
    (text.mapError fun error =>
      ParseError.new s!"read schema.state: {SchemaRegistry.ioText error}").bind SchemaRegistry.parse

def step (progress : Progress) (file : String × Except EpochsError String)
    : LexResult Progress :=
  if file.1 ∈ progress.lock then .ok (progress.skip file.1)
  else
    match file.2 with
    | .error error => .error (.err (ioError s!"read migration {file.1}" error))
    | .ok source => progress.apply file.1 source

def prepared (inputs : Inputs) : LexResult Progress := do
  let lock ← inputs.locked.mapError .err
  let schema ← inputs.schema.mapError .err
  inputs.files.foldlM step { lock, schema, applied := [], skipped := [] }

end Inputs

-- The runner computes it

variable {repoPath place : Path} {world next : World}

/-- Reading a file that may be missing. -/
theorem optional_apply {α : Type} {onExists onRead : EpochsError → ParseError} {default : α}
    {use : String → Run ParseError World α} (parts : List String) (world : World)
    : (do
        if !(← mapErr onExists (exists_ parts)) then
          pure default
        else do
          let text ← mapErr onRead (readToString parts)
          use text : Run ParseError World α) world
      = match seen world.fs parts with
        | none => .ok default world
        | some (.error error) => .error (.err (onRead error)) world
        | some (.ok text) => use text world := by
  rw [bind_apply, mapErr_apply, exists_apply, seen]
  dsimp only
  cases present world.fs parts with
  | false => rfl
  | true =>
    simp only [Bool.not_true, Bool.false_eq_true, if_false, if_true]
    rw [bind_apply, mapErr_apply, readToString_apply]
    cases textAt world.fs parts <;> rfl

theorem readLock_apply (repoPath place : Path) (world : World)
    : readLock repoPath world = ofExcept (inputsAt world.fs repoPath place).locked world := by
  rw [readLock, optional_apply, Inputs.locked, inputsAt]
  cases seen world.fs (repoPath ++ ["schema.lock"]) with
  | none => rfl
  | some text => cases text <;> rfl

theorem load_apply (repoPath place : Path) (world : World)
    : SchemaRegistry.load repoPath world
      = ofExcept (inputsAt world.fs repoPath place).schema world := by
  rw [SchemaRegistry.load, optional_apply, Inputs.schema, inputsAt]
  cases seen world.fs (repoPath ++ ["schema.state"]) with
  | none => rfl
  | some text => cases text <;> rfl

/-- A repository whose directories are there. -/
structure Site (repoPath place : Path) (world : World) : Prop where
  repo : World.Folder world.fs repoPath place
  migrations : World.Folder world.fs (repoPath ++ ["migrations"]) (place ++ ["migrations"])
  alive : world.deadline = none
  formed : world.fs.WellFormed

/-- The runner's first step makes the directories. -/
theorem site_of_createDirs (alive : world.deadline = none) (formed : world.fs.WellFormed)
    (made : createDirs (repoPath ++ ["migrations"]) world = .ok () next)
    : Site repoPath (lexical [] repoPath) next := by
  have effects := @createDirs_meets (fun _ => True) (repoPath ++ ["migrations"]) world
    fun _ _ => trivial
  rw [made] at effects
  have below := folder_of_createDirs [] (by rwa [List.append_nil])
  rw [lexical_append] at below
  exact ⟨folder_of_createDirs ["migrations"] made, below, effects.2 alive, effects.1.formed formed⟩

theorem listMigrationFiles_apply (site : Site repoPath place world)
    : listMigrationFiles (repoPath ++ ["migrations"]) world
      = .ok (inputsAt world.fs repoPath place).names world := by
  have listed : (inputsAt world.fs repoPath place).names
      = namesIn world.fs (fun name => extension name = some "eql") (place ++ ["migrations"]) := by
    simp [Inputs.names, inputsAt, Function.comp_def]
  have present : present world.fs (repoPath ++ ["migrations"]) = true := by
    simp [present, site.migrations.resolved, site.migrations.dir]
  rw [listMigrationFiles, bind_apply, mapErr_apply, exists_apply, present, listed]
  simp only [Bool.not_true, Bool.false_eq_true, if_false]
  rw [bind_apply, mapErr_apply, readDir, get_bind_apply]
  simp only [site.migrations.resolved, site.migrations.dir, pure_apply, namesIn]

theorem applyFile_apply (dir : Path) (progress : Progress) (name : String) (world : World)
    : applyFile dir progress name world
      = ofOutcome (Inputs.step progress (name, textAt world.fs (dir ++ [name]))) world := by
  rw [applyFile, Inputs.step]
  split
  · rfl
  · rw [bind_apply, mapErr_apply, readToString_apply]
    cases textAt world.fs (dir ++ [name]) <;> rfl

theorem applyFiles_apply (dir : Path) (names : List String) (progress : Progress) (world : World)
    : names.foldlM (applyFile dir) progress world
      = ofOutcome
          ((names.map fun name => (name, textAt world.fs (dir ++ [name]))).foldlM
            Inputs.step progress) world := by
  induction names generalizing progress with
  | nil => rfl
  | cons name rest ih =>
    rw [List.foldlM_cons, bind_apply, applyFile_apply, List.map_cons, List.foldlM_cons]
    cases Inputs.step progress (name, textAt world.fs (dir ++ [name])) with
    | error fault => rfl
    | ok next => exact ih next

/-- Everything up to the writes, when the directories are there. -/
theorem prepare_apply (site : Site repoPath place world)
    : prepare repoPath world = ofOutcome (inputsAt world.fs repoPath place).prepared world := by
  have inputs := applyFiles_apply (repoPath ++ ["migrations"])
    (inputsAt world.fs repoPath place).names
  have files : (inputsAt world.fs repoPath place).names.map
        (fun name => (name, textAt world.fs (repoPath ++ ["migrations"] ++ [name])))
      = (inputsAt world.fs repoPath place).files := by
    simp [Inputs.names, inputsAt, Function.comp_def]
  rw [prepare, bind_apply, mapErr_apply, site.migrations.createDirs]
  dsimp only
  rw [bind_apply, readLock_apply repoPath place, Inputs.prepared]
  cases (inputsAt world.fs repoPath place).locked with
  | error error => rfl
  | ok lock =>
    simp only [ofExcept_ok]
    rw [bind_apply, load_apply repoPath place]
    cases (inputsAt world.fs repoPath place).schema with
    | error error => rfl
    | ok schema =>
      simp only [ofExcept_ok]
      rw [bind_apply, listMigrationFiles_apply site]
      dsimp only
      rw [inputs, files]
      rfl

-- What the writes leave

theorem names_of_extension {name : String} (ending : extension name = some "eql")
    : Names name := by
  refine ⟨?_, ?_, ?_⟩ <;> rintro rfl <;> exact absurd ending (by decide)

/-- A file written beside the migrations is read back, and the others stay as they are. -/
theorem Site.wrote {name text : String} (site : Site repoPath place world)
    (named : Names name)
    (wrote : writeFile (repoPath ++ [name]) (Utf8.encode text) world = .ok () next)
    : Site repoPath place next ∧ SameDirs world.fs next.fs
      ∧ seen next.fs (repoPath ++ [name]) = some (.ok text)
      ∧ (∀ other, Names other → other ≠ name
        → seen next.fs (repoPath ++ [other]) = seen world.fs (repoPath ++ [other]))
      ∧ (inputsAt next.fs repoPath place).files = (inputsAt world.fs repoPath place).files := by
  obtain ⟨placed, effect⟩ := site.repo.wrote named wrote
  have keeps : ∀ path, world.fs.node path = some .dir → next.fs.node path = some .dir :=
    fun path => (effect.dirs path).mp
  have after : Site repoPath place next :=
    ⟨site.repo.mono keeps, site.migrations.mono keeps, effect.alive site.alive,
      effect.formed site.formed⟩
  have elsewhere (entry : String) : place ++ ["migrations"] ++ [entry] ≠ place ++ [name] := by
    intro same
    have lengths := congrArg List.length same
    simp at lengths
  refine ⟨after, effect.dirs, after.repo.seen_wrote named placed effect, ?_, ?_⟩
  · intro other otherNamed different
    have apart : place ++ [other] ≠ place ++ [name] := by simpa using different
    exact site.repo.seen_entry after.repo otherNamed (effect.nodes _ apart)
      (effect.files site.formed _ apart)
  · have names := @namesIn_congr world.fs next.fs (place ++ ["migrations"]) site.formed
      after.formed (fun name => extension name = some "eql") fun entry => by
        rw [effect.nodes _ (elsewhere entry)]
    rw [inputsAt, inputsAt, names]
    refine List.map_congr_left fun entry member => ?_
    obtain ⟨kept, -⟩ := (mem_namesIn site.formed).mp member
    rw [(site.migrations.read_entry after.migrations (names_of_extension (of_decide_eq_true kept))
      (effect.nodes _ (elsewhere entry)) (effect.files site.formed _ (elsewhere entry))).2]

/-- The state file can be written as well as the lock. -/
structure Ready (repoPath place : Path) (world : World) : Prop extends Site repoPath place world where
  lock : World.Writable world.fs (repoPath ++ ["schema.lock"])
  state : World.Writable world.fs (repoPath ++ ["schema.state"])

def Inputs.locking (inputs : Inputs) (lock : List String) : Inputs :=
  { inputs with lock := some (.ok (lockText lock)) }

def Inputs.saving (inputs : Inputs) (schema : SchemaRegistry) : Inputs :=
  { inputs with state := some (.ok schema.toStateFile) }

theorem Ready.writeLock (ready : Ready repoPath place world) (lock : List String)
    : ∃ next, writeLock repoPath lock world = .ok () next ∧ Ready repoPath place next
        ∧ inputsAt next.fs repoPath place = (inputsAt world.fs repoPath place).locking lock := by
  obtain ⟨next, wrote⟩ := ready.lock.returns ready.alive (Utf8.encode (lockText lock))
  obtain ⟨site, dirs, here, others, files⟩ :=
    ready.toSite.wrote ⟨by decide, by decide, by decide⟩ wrote
  exact ⟨next, mapErr_eq_ok.mpr wrote,
    ⟨site, ready.lock.congr dirs, ready.state.congr dirs⟩, Inputs.ext here
      (others "schema.state" ⟨by decide, by decide, by decide⟩ (by decide)) files⟩

theorem Ready.save (ready : Ready repoPath place world) (schema : SchemaRegistry)
    : ∃ next, save repoPath schema world = .ok () next ∧ Ready repoPath place next
        ∧ inputsAt next.fs repoPath place = (inputsAt world.fs repoPath place).saving schema := by
  obtain ⟨next, wrote⟩ := ready.state.returns ready.alive (Utf8.encode schema.toStateFile)
  obtain ⟨site, dirs, here, others, files⟩ :=
    ready.toSite.wrote ⟨by decide, by decide, by decide⟩ wrote
  exact ⟨next, mapErr_eq_ok.mpr wrote,
    ⟨site, ready.lock.congr dirs, ready.state.congr dirs⟩, Inputs.ext
      (others "schema.lock" ⟨by decide, by decide, by decide⟩ (by decide)) here files⟩

-- Whole runs

def opened (repoPath : Path) (world : World) : World :=
  Run.stateOf (World.createDirs (repoPath ++ ["migrations"]) world)

def found (repoPath : Path) (world : World) : Inputs :=
  inputsAt (opened repoPath world).fs repoPath (World.lexical [] repoPath)

/-- No input or output fails in a run: the directories can be made, and then the lock and the state
file can be written.
-/
structure Accessible (repoPath : Path) (world : World) : Prop where
  alive : world.deadline = none
  formed : world.fs.WellFormed
  made : World.createDirs (repoPath ++ ["migrations"]) world = .ok () (opened repoPath world)
  lock : World.Writable (opened repoPath world).fs (repoPath ++ ["schema.lock"])
  state : World.Writable (opened repoPath world).fs (repoPath ++ ["schema.state"])

theorem Accessible.ready (accessible : Accessible repoPath world)
    : Ready repoPath (lexical [] repoPath) (opened repoPath world) :=
  ⟨site_of_createDirs accessible.alive accessible.formed accessible.made, accessible.lock,
    accessible.state⟩

theorem opened_of_site (site : Site repoPath place world) : opened repoPath world = world := by
  rw [opened, site.migrations.createDirs, stateOf_ok]

theorem Ready.accessible (ready : Ready repoPath (lexical [] repoPath) world)
    : Accessible repoPath world
      ∧ found repoPath world = inputsAt world.fs repoPath (lexical [] repoPath) := by
  have same := opened_of_site ready.toSite
  refine ⟨⟨ready.alive, ready.formed, ?_, ?_, ?_⟩, by rw [found, same]⟩
  · rw [same, ready.migrations.createDirs]
  · rw [same]
    exact ready.lock
  · rw [same]
    exact ready.state

theorem prepare_of_made
    (made : createDirs (repoPath ++ ["migrations"]) world = .ok () next)
    (site : Site repoPath place next)
    : prepare repoPath world = prepare repoPath next := by
  rw [prepare, bind_apply, bind_apply, mapErr_apply, mapErr_apply, made,
    site.migrations.createDirs]

theorem Accessible.prepare (accessible : Accessible repoPath world)
    : prepare repoPath world
      = ofOutcome (found repoPath world).prepared (opened repoPath world) := by
  have site := accessible.ready.toSite
  rw [prepare_of_made accessible.made site, prepare_apply site]
  rfl

/-- A run writes what is computed from the files. -/
theorem Accessible.migrate_of_ok {progress : Progress} (accessible : Accessible repoPath world)
    (done : (found repoPath world).prepared = .ok progress)
    : ∃ next, migrate repoPath world = .ok progress.report next ∧ Accessible repoPath next
        ∧ found repoPath next
          = ((found repoPath world).locking progress.lock).saving progress.schema := by
  obtain ⟨middle, locked, ready, lockIn⟩ := accessible.ready.writeLock progress.lock
  obtain ⟨next, saved, readyNext, stateIn⟩ := ready.save progress.schema
  obtain ⟨again, same⟩ := readyNext.accessible
  refine ⟨next, ?_, again, ?_⟩
  · rw [migrate, bind_apply, accessible.prepare, done, ofOutcome_ok]
    dsimp only
    rw [bind_of_ok locked, bind_of_ok saved]
    rfl
  · rw [same, stateIn, lockIn]
    rfl

/-- A run that is stopped leaves the lock as a whole run does, and the state file as it was. -/
theorem Accessible.migrateStopped_of_ok {progress : Progress}
    (accessible : Accessible repoPath world)
    (done : (found repoPath world).prepared = .ok progress)
    : ∃ next, migrateStopped repoPath world = .ok () next ∧ Accessible repoPath next
        ∧ found repoPath next = (found repoPath world).locking progress.lock := by
  obtain ⟨middle, locked, ready, lockIn⟩ := accessible.ready.writeLock progress.lock
  obtain ⟨again, same⟩ := ready.accessible
  refine ⟨middle, ?_, again, ?_⟩
  · rw [migrateStopped, bind_apply, accessible.prepare, done, ofOutcome_ok]
    exact locked
  · rw [same, lockIn]
    rfl

/-- A run that returned had no failing input or output. -/
theorem accessible_of_migrate {report : MigrationReport} (alive : world.deadline = none)
    (formed : world.fs.WellFormed) (ran : migrate repoPath world = .ok report next)
    : Accessible repoPath world
      ∧ ∃ progress, (found repoPath world).prepared = .ok progress ∧ report = progress.report := by
  obtain ⟨progress, middle, prepared, wrote⟩ := bind_eq_ok.mp ran
  have opens : createDirs (repoPath ++ ["migrations"]) world
      = .ok () (opened repoPath world) := by
    obtain ⟨_, made, created, -⟩ := bind_eq_ok.mp prepared
    have created := mapErr_eq_ok.mp created
    rw [opened, created]
    rfl
  have site := site_of_createDirs alive formed opens
  rw [prepare_of_made opens site, prepare_apply site] at prepared
  cases done : (inputsAt (opened repoPath world).fs repoPath (lexical [] repoPath)).prepared with
  | error fault =>
    rw [done] at prepared
    cases prepared
  | ok found =>
    rw [done] at prepared
    cases prepared
    obtain ⟨_, locked, wroteLock, saved⟩ := bind_eq_ok.mp wrote
    obtain ⟨_, last, wroteState, returned⟩ := bind_eq_ok.mp saved
    cases returned
    have wroteLock := mapErr_eq_ok.mp wroteLock
    have wroteState := mapErr_eq_ok.mp wroteState
    have lock := writeFile_writable (repoPath ++ ["schema.lock"])
      (Utf8.encode (lockText progress.lock)) (opened repoPath world)
    have state := writeFile_writable (repoPath ++ ["schema.state"])
      (Utf8.encode progress.schema.toStateFile) locked
    rw [wroteLock] at lock
    rw [wroteState] at state
    refine ⟨⟨alive, formed, opens, lock, ?_⟩, progress, done, rfl⟩
    exact Writable.congr state fun path => (writeFile_dirs wroteLock path).symm

end Migrate
end Epochs.Ql
