import Epochs.Ql.Reruns

/-! Migrations that arrive in two batches. The second run finds the schema and the lock of the
first one in their files, and goes on from there as one run over all files does.
-/

namespace Epochs.Ql

open Lib Text SchemaRegistry

-- Names without quotes

structure IsIdent (text : String) : Prop where
  nonempty : text ≠ ""
  starts : ∀ char ∈ text.toList.head?, startsWord char = true
  continues : ∀ char ∈ text.toList, continuesWord char = true

instance (text : String) : Decidable (IsIdent text) :=
  decidable_of_iff
    (text ≠ "" ∧ text.toList.head?.all startsWord = true ∧ text.toList.all continuesWord = true)
    ⟨fun ⟨nonempty, starts, continues⟩ =>
        ⟨nonempty, by simpa [Option.all_eq_true] using starts, by simpa using continues⟩,
      fun ident =>
        ⟨ident.nonempty, by simpa [Option.all_eq_true] using ident.starts,
          by simpa using ident.continues⟩⟩

def IsDotted (path : String) : Prop :=
  ∃ parts, parts ≠ [] ∧ (∀ part ∈ parts, IsIdent part) ∧ path = join "." parts

/-- A statement whose names can be written without quotes. -/
def DdlStatement.Unquoted : DdlStatement → Prop
  | .createCollection name keys => IsIdent name ∧ ∀ key ∈ keys, IsDotted key.1
  | .createIndex collection path _ => IsIdent collection ∧ IsDotted path
  | .dropIndex collection path => IsIdent collection ∧ IsDotted path

theorem solid_of_continuesWord {char : Char} (continues : continuesWord char = true)
    : isWhitespace char = false ∧ char ≠ '.' := by
  have codes : (97 ≤ char.toNat ∧ char.toNat ≤ 122) ∨ (65 ≤ char.toNat ∧ char.toNat ≤ 90)
      ∨ (48 ≤ char.toNat ∧ char.toNat ≤ 57) ∨ char.toNat = 95 := by
    simp only [continuesWord, isAlpha, isDigit, decide_eq_true_eq] at continues
    rcases continues with (lower | upper) | digit | rfl
    · exact .inl lower
    · exact .inr (.inl upper)
    · exact .inr (.inr (.inl digit))
    · exact .inr (.inr (.inr rfl))
  constructor
  · unfold isWhitespace
    rw [decide_eq_false_iff_not]
    omega
  · rintro rfl
    revert codes
    decide

theorem IsIdent.isWord {text : String} (ident : IsIdent text) : IsWord text :=
  ⟨ident.nonempty, fun char member => (solid_of_continuesWord (ident.continues char member)).1⟩

theorem IsIdent.dotless {text : String} (ident : IsIdent text) : '.' ∉ text.toList :=
  fun member => (solid_of_continuesWord (ident.continues _ member)).2 rfl

theorem IsDotted.isWord {path : String} (dotted : IsDotted path) : IsWord path := by
  obtain ⟨parts, some_, idents, rfl⟩ := dotted
  induction parts with
  | nil => exact absurd rfl some_
  | cons first rest ih =>
    have word := (idents first List.mem_cons_self).isWord
    cases rest with
    | nil => exact word
    | cons second others =>
      have later := ih (by simp) fun part member => idents part (List.mem_cons_of_mem _ member)
      refine ⟨fun empty => ?_, fun char member => ?_⟩
      · have chars := congrArg String.toList empty
        rw [toList_join_cons] at chars
        exact word.toList_ne_nil (List.append_eq_nil_iff.mp chars).1
      · rw [toList_join_cons, List.mem_append, List.mem_append] at member
        rcases member with inFirst | dot | inRest
        · exact word.solid char inFirst
        · obtain rfl : char = '.' := by simpa using dot
          decide
        · exact later.solid char inRest

/-- What the state file can hold of a collection under a name. -/
def StorableAs (name : String) (collection : CollectionSchema) : Prop :=
  name = collection.name ∧ collection.Storable

variable {statements : List DdlStatement}

/-- Statements without quotes keep a schema one that the state file can hold. -/
theorem applyStatements_storable {registry last : SchemaRegistry}
    (unquoted : ∀ statement ∈ statements, statement.Unquoted)
    (each : registry.Each StorableAs) (applied : registry.applyStatements statements = .ok last)
    : last.Each StorableAs := by
  induction statements generalizing registry with
  | nil =>
    cases applied
    exact each
  | cons statement rest ih =>
    obtain ⟨here, later⟩ := List.forall_mem_cons.mp unquoted
    obtain ⟨next, first, others⟩ := applyStatements_cons.mp applied
    refine ih later (each.applyStatement first ?_ ?_ ?_) others
    · rintro name keys rfl
      refine ⟨rfl, here.1.isWord, fun key member => ?_, by simp⟩
      obtain ⟨pair, inKeys, rfl⟩ := List.mem_map.mp member
      exact (here.2 pair inKeys).isWord
    · rintro _ path fieldType found rfl - ⟨rfl, storable⟩
      refine ⟨rfl, storable.name, storable.keys, fun index member => ?_⟩
      rcases List.mem_append.mp member with old | new
      · exact storable.indexes index old
      · obtain rfl := List.mem_singleton.mp new
        exact ⟨isWord_indexNameFor here.1.isWord here.2.isWord,
          owner_indexNameFor here.1.dotless path, here.2.isWord⟩
    · rintro _ found kept ⟨rfl, storable⟩
      exact ⟨rfl, storable.name, storable.keys, fun index member =>
        storable.indexes index (List.mem_of_mem_filter member)⟩

theorem storable_of_unquoted {schema : SchemaRegistry}
    (unquoted : ∀ statement ∈ statements, statement.Unquoted)
    (applied : new.applyStatements statements = .ok schema)
    : schema.Storable := by
  intro collection member
  obtain ⟨entry, inEntries, rfl⟩ := List.mem_map.mp member
  exact (applyStatements_storable unquoted each_new applied entry inEntries).2

namespace Migrate

-- Two batches

/-- A file name without a comment sign in front and without white space around it. -/
def PlainName (name : String) : Prop := trim name = name ∧ startsWith name "#" = false

def Unquoted (file : File) : Prop :=
  ∀ source statements, file.2 = .ok source → parseMigration source = .ok statements
    → ∀ statement ∈ statements, statement.Unquoted

variable {files : List File}

theorem unquoted_statementsOf
    (unquoted : ∀ file ∈ files, Unquoted file) (written : statementsOf files = some statements)
    : ∀ statement ∈ statements, statement.Unquoted := by
  induction files generalizing statements with
  | nil =>
    cases written
    simp
  | cons file rest ih =>
    obtain ⟨source, here, later, read, parsed, others, rfl⟩ := statementsOf_cons.mp written
    obtain ⟨first, remaining⟩ := List.forall_mem_cons.mp unquoted
    intro statement member
    rcases List.mem_append.mp member with inHere | inLater
    · exact first source here read parsed statement inHere
    · exact ih remaining others statement inLater

variable {name : String}

/-- Something is kept of every plain name: its first line begins as the name does. -/
theorem kept_ne_nil (plain : PlainName name) (nonempty : name ≠ "")
    : kept name ≠ [] := by
  cases chars : name.toList with
  | nil => exact absurd (String.toList_eq_nil_iff.mp chars) nonempty
  | cons char rest =>
    have solid : isWhitespace char = false := by
      have trimmed : trimChars name.toList = name.toList := by
        simpa [trim] using congrArg String.toList plain.1
      refine (trimChars_solid name.toList).1 char ?_
      rw [trimmed, chars]
      rfl
    have notHash : char ≠ '#' := by
      have starts := plain.2
      rw [startsWith_hash, chars] at starts
      simpa using starts
    have notBreak : (char = '\n') = False := by
      rw [eq_iff_iff, iff_false]
      rintro rfl
      exact absurd solid (by decide)
    cases parts : splitChars (· = '\n') rest with
    | nil => exact absurd parts (splitChars_ne_nil _ _)
    | cons part more =>
      have split : splitChars (· = '\n') name.toList = (char :: part) :: more := by
        rw [chars, splitChars, parts]
        simp [notBreak]
      have uncut : ∃ tail, dropReturn (char :: part) = char :: tail := by
        unfold dropReturn
        split
        · rename_i cut
          cases part with
          | nil =>
            obtain rfl : char = '\r' := by simpa using cut
            exact absurd solid (by decide)
          | cons second others => exact ⟨_, rfl⟩
        · exact ⟨part, rfl⟩
      obtain ⟨tail, cut⟩ := uncut
      have head : (trim (String.ofList (dropReturn (char :: part)))).toList.head? = some char := by
        rw [cut, trim, String.toList_ofList, String.toList_ofList, head_trimChars solid]
      refine List.ne_nil_of_mem (a := trim (String.ofList (dropReturn (char :: part)))) ?_
      rw [kept, split, List.mem_filter]
      refine ⟨by simp, decide_eq_true ⟨fun empty => ?_, ?_⟩⟩
      · simp [empty] at head
      · rw [startsWith_hash, head]
        simpa using notHash

theorem lockable_iff (plain : PlainName name) (nonempty : name ≠ "")
    : Lockable name ↔ '\n' ∉ name.toList :=
  ⟨Lockable.unbroken, fun unbroken => ⟨unbroken, plain.1, nonempty, plain.2⟩⟩

/-- Two runs end alike: both return or none does, and then with the same schema and lock. -/
def EndAlike (repoPath : Path) (first second : EStateM.Result (Fault ParseError) World MigrationReport)
    : Prop :=
  ((∃ report last, first = .ok report last) ↔ ∃ report last, second = .ok report last)
  ∧ ∀ report last report' last', first = .ok report last → second = .ok report' last'
    → report.schema = report'.schema ∧ (found repoPath last).locked = (found repoPath last').locked

/-- The worlds of two batches that follow a run over the first one: in `second` further files have
come after those of `first`, which has been migrated, and in `scratch` all files are new.
-/
structure Batches (repoPath : Path) (first next second scratch : World) (more : List File) : Prop where
  reached : Accessible repoPath second
  startable : Accessible repoPath scratch
  onward : found repoPath second
    = { found repoPath next with files := (found repoPath first).files ++ more }
  fresh : found repoPath scratch
    = { found repoPath first with files := (found repoPath first).files ++ more }
  plain : ∀ file ∈ more, PlainName file.1
  unquoted : ∀ file ∈ more, Unquoted file

variable {repoPath : Path} {first next : World} {report : MigrationReport}

theorem Accessible.nonempty {world : World} (accessible : Accessible repoPath world)
    : ∀ name ∈ (found repoPath world).names, name ≠ "" := by
  intro name member
  have listed : name ∈ World.namesIn (opened repoPath world).fs
      (fun name => extension name = some "eql") (World.lexical [] repoPath ++ ["migrations"]) := by
    simpa [Inputs.names, found, inputsAt, Function.comp_def] using member
  obtain ⟨ending, -⟩ := (World.mem_namesIn accessible.ready.formed).mp listed
  exact (names_of_extension (of_decide_eq_true ending)).1

theorem pendingIn_nil (files : List File) : pendingIn [] files = files := by
  simp [pendingIn]

/-- The files that come after those that are locked. -/
theorem pendingIn_append {more : List File}
    (distinct : ((files ++ more).map Prod.fst).Nodup)
    : pendingIn (files.map Prod.fst) (files ++ more) = more := by
  rw [List.map_append, List.nodup_append] at distinct
  obtain ⟨-, -, apart⟩ := distinct
  have none : files.filter (fun file => file.1 ∉ files.map Prod.fst) = [] := by
    rw [List.filter_eq_nil_iff]
    intro file member
    simpa using List.mem_map_of_mem (f := Prod.fst) member
  have all : more.filter (fun file => file.1 ∉ files.map Prod.fst) = more := by
    rw [List.filter_eq_self]
    intro file member
    refine decide_eq_true fun inFiles => ?_
    exact apart _ inFiles _ (List.mem_map_of_mem member) rfl
  rw [pendingIn, List.filter_append, none, all, List.nil_append]

/-- What a first run leaves when nothing was there before. -/
structure FirstBatch (repoPath : Path) (first next : World) (schema : SchemaRegistry)
    (statements : List DdlStatement) : Prop where
  works : Accessible repoPath first
  again : Accessible repoPath next
  unlocked : (found repoPath first).locked = .ok []
  stateless : (found repoPath first).schema = .ok SchemaRegistry.new
  written : statementsOf (found repoPath first).files = some statements
  applied : SchemaRegistry.new.applyStatements statements = .ok schema
  left : found repoPath next
    = ((found repoPath first).locking (found repoPath first).names).saving schema

theorem firstBatch_of_migrate (alive : first.deadline = none) (formed : first.fs.WellFormed)
    (unlocked : (found repoPath first).lock = none) (stateless : (found repoPath first).state = none)
    (ran : migrate repoPath first = .ok report next)
    : ∃ statements, FirstBatch repoPath first next report.schema statements := by
  obtain ⟨lock, start, statements, schema, works, locked, read, written, applied, rfl, again, left⟩ :=
    of_migrate alive formed ran
  have nothing : (found repoPath first).locked = .ok [] := by rw [Inputs.locked, unlocked]
  have new : (found repoPath first).schema = .ok new := by
    rw [Inputs.schema, stateless]
  obtain rfl := Except.ok.inj (nothing.symm.trans locked)
  obtain rfl := Except.ok.inj (new.symm.trans read)
  rw [pendingIn_nil] at written left
  exact ⟨statements, works, again, nothing, new, written, applied, left⟩

variable {second scratch : World} {schema : SchemaRegistry} {statements : List DdlStatement}
    {more : List File}

/-- What a run over the second batch comes to, and a run over both: the statements of the second
batch are applied to the schema of the first, and the names of both are locked.
-/
def Completes (repoPath : Path) (files more : List File) (schema : SchemaRegistry)
    (report : MigrationReport) (last : World) : Prop :=
  ∃ later, statementsOf more = some later ∧ schema.applyStatements later = .ok report.schema
    ∧ (found repoPath last).locked = .ok (lockedNames (lockText ((files ++ more).map Prod.fst)))

theorem Completes.alike {report report' : MigrationReport} {last last' : World}
    (completes : Completes repoPath files more schema report last)
    (also : Completes repoPath files more schema report' last')
    : report.schema = report'.schema
      ∧ (found repoPath last).locked = (found repoPath last').locked := by
  obtain ⟨later, written, applied, locked⟩ := completes
  obtain ⟨later', written', applied', locked'⟩ := also
  obtain rfl := Option.some.inj (written.symm.trans written')
  exact ⟨Except.ok.inj (applied.symm.trans applied'), locked.trans locked'.symm⟩

theorem FirstBatch.second_returns_iff (batch : FirstBatch repoPath first next schema statements)
    (storable : schema.Storable)
    (lockable : ∀ name ∈ (found repoPath first).names, Lockable name)
    (batches : Batches repoPath first next second scratch more)
    : ((∃ report last, migrate repoPath second = .ok report last)
        ↔ ∃ later schema', statementsOf more = some later
          ∧ schema.applyStatements later = .ok schema')
      ∧ ∀ report last, migrate repoPath second = .ok report last
        → Completes repoPath (found repoPath first).files more schema report last := by
  have describes : (found repoPath first).Describes schema :=
    ⟨[], new, statements, batch.unlocked, batch.stateless,
      by rw [pendingIn_nil, batch.written], batch.applied⟩
  have locked : (found repoPath second).locked = .ok (found repoPath first).names := by
    rw [batches.onward, batch.left]
    exact (@locked_again (found repoPath first) [] (by simp) _).trans
      (congrArg Except.ok (flatMap_kept lockable))
  have read : (found repoPath second).schema = .ok schema := by
    rw [batches.onward, batch.left]
    exact parse_toStateFile describes.keyed storable
  have files : (found repoPath second).files = (found repoPath first).files ++ more := by
    rw [batches.onward]
  have pending : pendingIn (found repoPath first).names (found repoPath second).files = more := by
    have distinct := batches.reached.distinct
    rw [Inputs.names, files] at distinct
    rw [files]
    exact pendingIn_append distinct
  have completes : ∀ report last, migrate repoPath second = .ok report last
      → Completes repoPath (found repoPath first).files more schema report last := by
    intro report last ran
    obtain ⟨lock, start, later, schema', -, locked', read', written, applied, rfl, -, left⟩ :=
      of_migrate batches.reached.alive batches.reached.formed ran
    obtain rfl := Except.ok.inj (locked.symm.trans locked')
    obtain rfl := Except.ok.inj (read.symm.trans read')
    rw [pending] at written left
    refine ⟨later, written, applied, ?_⟩
    rw [left, List.map_append]
    rfl
  refine ⟨⟨?_, ?_⟩, completes⟩
  · rintro ⟨report, last, ran⟩
    obtain ⟨later, written, applied, -⟩ := completes report last ran
    exact ⟨later, _, written, applied⟩
  · rintro ⟨later, schema', written, applied⟩
    obtain ⟨last, ran, -⟩ := batches.reached.migrates locked read (by rw [pending]; exact written)
      applied
    exact ⟨_, last, ran⟩

theorem FirstBatch.scratch_returns_iff (batch : FirstBatch repoPath first next schema statements)
    (batches : Batches repoPath first next second scratch more)
    : ((∃ report last, migrate repoPath scratch = .ok report last)
        ↔ ∃ later schema', statementsOf more = some later
          ∧ schema.applyStatements later = .ok schema')
      ∧ ∀ report last, migrate repoPath scratch = .ok report last
        → Completes repoPath (found repoPath first).files more schema report last := by
  have locked : (found repoPath scratch).locked = .ok [] := by
    rw [batches.fresh]
    exact batch.unlocked
  have read : (found repoPath scratch).schema = .ok new := by
    rw [batches.fresh]
    exact batch.stateless
  have pending : pendingIn [] (found repoPath scratch).files
      = (found repoPath first).files ++ more := by
    rw [pendingIn_nil, batches.fresh]
  have completes : ∀ report last, migrate repoPath scratch = .ok report last
      → Completes repoPath (found repoPath first).files more schema report last := by
    intro report last ran
    obtain ⟨lock, start, all, schema', -, locked', read', written, applied, rfl, -, left⟩ :=
      of_migrate batches.startable.alive batches.startable.formed ran
    obtain rfl := Except.ok.inj (locked.symm.trans locked')
    obtain rfl := Except.ok.inj (read.symm.trans read')
    rw [pending] at written left
    obtain ⟨here, later, atFirst, atMore, rfl⟩ := statementsOf_append.mp written
    obtain rfl := Option.some.inj (batch.written.symm.trans atFirst)
    obtain ⟨middle, inFirst, inMore⟩ := applyStatements_append.mp applied
    obtain rfl := Except.ok.inj (batch.applied.symm.trans inFirst)
    refine ⟨later, atMore, inMore, ?_⟩
    rw [left]
    rfl
  refine ⟨⟨?_, ?_⟩, completes⟩
  · rintro ⟨report, last, ran⟩
    obtain ⟨later, written, applied, -⟩ := completes report last ran
    exact ⟨later, _, written, applied⟩
  · rintro ⟨later, schema', written, applied⟩
    obtain ⟨last, ran, -⟩ := batches.startable.migrates locked read
      (by
        rw [pending]
        exact statementsOf_append.mpr ⟨statements, later, batch.written, written, rfl⟩)
      (applyStatements_append.mpr ⟨schema, batch.applied, applied⟩)
    exact ⟨_, last, ran⟩

/-- Without further files the second run starts where the first one ended. -/
theorem FirstBatch.unextended (batch : FirstBatch repoPath first next schema statements)
    : Batches repoPath first next next first [] where
  reached := batch.again
  startable := batch.works
  onward := by
    rw [List.append_nil, batch.left]
    rfl
  fresh := by rw [List.append_nil]
  plain := by simp
  unquoted := by simp

/-- A lock that is the same after a second run without further files has lost no plain name. -/
theorem FirstBatch.lockable_of_alike (batch : FirstBatch repoPath first next schema statements)
    (plain : ∀ name ∈ (found repoPath first).names, PlainName name)
    {report : MigrationReport} {last : World} (ran : migrate repoPath next = .ok report last)
    (same : (found repoPath last).locked = (found repoPath next).locked)
    : ∀ name ∈ (found repoPath first).names, Lockable name := by
  have locked : (found repoPath next).locked = .ok ((found repoPath first).names.flatMap kept) := by
    rw [batch.left]
    exact @locked_again (found repoPath first) [] (by simp) _
  have files : (found repoPath next).files = (found repoPath first).files := by
    rw [batch.left]
    rfl
  obtain ⟨lock, start, later, schema', -, locked', -, -, -, -, -, left⟩ :=
    of_migrate batch.again.alive batch.again.formed ran
  obtain rfl := Except.ok.inj (locked.symm.trans locked')
  have pending := @pending_again [] (found repoPath first).files (by simp)
  rw [pendingIn_nil, List.nil_append] at pending
  have lockedLast := @locked_again (found repoPath next) ((found repoPath first).names.flatMap kept)
    (fun name member => by
      obtain ⟨source, -, inKept⟩ := List.mem_flatMap.mp member
      exact lockable_of_kept inKept)
    ((pendingIn ((found repoPath first).names.flatMap kept) (found repoPath next).files).map Prod.fst)
  have nothing : ((pendingIn ((found repoPath first).names.flatMap kept)
      (found repoPath next).files).map Prod.fst).flatMap kept = [] := by
    rw [left] at same
    have lists := Except.ok.inj (lockedLast.symm.trans (same.trans locked))
    exact List.append_right_eq_self.mp lists
  intro name member
  by_contra unlockable
  obtain ⟨file, inFiles, rfl⟩ := List.mem_map.mp member
  have inPending : file ∈ pendingIn ((found repoPath first).names.flatMap kept)
      (found repoPath next).files := by
    rw [files, Inputs.names, pending]
    exact List.mem_filter.mpr ⟨inFiles, by simpa using unlockable⟩
  exact kept_ne_nil (plain file.1 member) (batch.works.nonempty file.1 member)
    (List.flatMap_eq_nil_iff.mp nothing file.1 (List.mem_map_of_mem inPending))

/-- After any first batch of plain names and unquoted statements, every second batch ends as one run
over both does, exactly when no name of the first batch has a line feed in it.
-/
theorem batches_end_alike_iff (alive : first.deadline = none) (formed : first.fs.WellFormed)
    (unlocked : (found repoPath first).lock = none) (stateless : (found repoPath first).state = none)
    (plain : ∀ name ∈ (found repoPath first).names, PlainName name)
    (unquoted : ∀ file ∈ (found repoPath first).files, Unquoted file)
    (ran : migrate repoPath first = .ok report next)
    : (∀ second scratch more, Batches repoPath first next second scratch more
        → EndAlike repoPath (migrate repoPath second) (migrate repoPath scratch))
      ↔ ∀ name ∈ (found repoPath first).names, '\n' ∉ name.toList := by
  obtain ⟨statements, batch⟩ := firstBatch_of_migrate alive formed unlocked stateless ran
  constructor
  · intro alike
    obtain ⟨returns, same⟩ := alike next first [] batch.unextended
    obtain ⟨report', last, rerun⟩ := returns.mpr ⟨report, next, ran⟩
    have lockable := batch.lockable_of_alike plain rerun (same _ _ _ _ rerun ran).2
    exact fun name member => (lockable name member).unbroken
  · intro unbroken second scratch more batches
    have lockable : ∀ name ∈ (found repoPath first).names, Lockable name := fun name member =>
      (lockable_iff (plain name member) (batch.works.nonempty name member)).mpr (unbroken name member)
    have storable := storable_of_unquoted (unquoted_statementsOf unquoted batch.written) batch.applied
    obtain ⟨secondReturns, ofSecond⟩ := batch.second_returns_iff storable lockable batches
    obtain ⟨scratchReturns, ofScratch⟩ := batch.scratch_returns_iff batches
    exact ⟨secondReturns.trans scratchReturns.symm, fun _ _ _ _ atSecond atScratch =>
      (ofSecond _ _ atSecond).alike (ofScratch _ _ atScratch)⟩

theorem unquoted_oneFile
    (files : (found ["r"] (oneFile name)).files = [(name, .ok "CREATE COLLECTION a KEY b INT")])
    : ∀ file ∈ (found ["r"] (oneFile name)).files, Unquoted file := by
  have parsed : parseMigration "CREATE COLLECTION a KEY b INT"
      = .ok [.createCollection "a" [("b", .int)]] := by
    decide +kernel
  rw [files]
  intro file member source statements read written
  obtain rfl := List.mem_singleton.mp member
  obtain rfl := Except.ok.inj read
  obtain rfl := Except.ok.inj (written.symm.trans parsed)
  intro statement inStatements
  obtain rfl := List.mem_singleton.mp inStatements
  exact ⟨by decide, by simpa using ⟨["b"], by simp, by decide, rfl⟩⟩

theorem batches_end_alike_one
    : ∃ report next, migrate ["r"] (oneFile "a.eql") = .ok report next
        ∧ ∀ second scratch more, Batches ["r"] (oneFile "a.eql") next second scratch more
          → EndAlike ["r"] (migrate ["r"] second) (migrate ["r"] scratch) := by
  have files : (found ["r"] (oneFile "a.eql")).files
      = [("a.eql", .ok "CREATE COLLECTION a KEY b INT")] := by
    decide +kernel
  have names : (found ["r"] (oneFile "a.eql")).names = ["a.eql"] := by rw [Inputs.names, files]; rfl
  have plain : ∀ name ∈ (found ["r"] (oneFile "a.eql")).names, PlainName name := by
    rw [names, List.forall_mem_singleton]
    exact ⟨by decide, by decide⟩
  have unbroken : ∀ name ∈ (found ["r"] (oneFile "a.eql")).names, '\n' ∉ name.toList := by
    rw [names]
    decide
  exact ⟨_, _, migrate_oneFile, (batches_end_alike_iff rfl (withFiles_formed _) (by decide +kernel)
    (by decide +kernel) plain (unquoted_oneFile files) migrate_oneFile).mpr unbroken⟩

/-- A name of two lines is read back as two names: the second run applies the file again and fails,
where one run over the same files returns.
-/
theorem batches_not_alike_broken
    : ∃ report next, migrate ["r"] (oneFile "a\nb.eql") = .ok report next
        ∧ (found ["r"] (oneFile "a\nb.eql")).lock = none
        ∧ (found ["r"] (oneFile "a\nb.eql")).state = none
        ∧ (∀ name ∈ (found ["r"] (oneFile "a\nb.eql")).names, PlainName name)
        ∧ (∀ file ∈ (found ["r"] (oneFile "a\nb.eql")).files, Unquoted file)
        ∧ Batches ["r"] (oneFile "a\nb.eql") next next (oneFile "a\nb.eql") []
        ∧ ¬ EndAlike ["r"] (migrate ["r"] next) (migrate ["r"] (oneFile "a\nb.eql")) := by
  have files : (found ["r"] (oneFile "a\nb.eql")).files
      = [("a\nb.eql", .ok "CREATE COLLECTION a KEY b INT")] := by
    decide +kernel
  have once : Run.valueOf (migrate ["r"] (oneFile "a\nb.eql"))
      = some ⟨["a\nb.eql"], [], oneSchema⟩ := by
    decide +kernel
  have twice : Run.valueOf (migrate ["r"] (Run.stateOf (migrate ["r"] (oneFile "a\nb.eql"))))
      = none := by
    decide +kernel
  have ran := Run.eq_ok_of_valueOf once
  have unlocked : (found ["r"] (oneFile "a\nb.eql")).lock = none := by decide +kernel
  have stateless : (found ["r"] (oneFile "a\nb.eql")).state = none := by decide +kernel
  obtain ⟨statements, batch⟩ :=
    firstBatch_of_migrate rfl (withFiles_formed _) unlocked stateless ran
  have plain : ∀ name ∈ (found ["r"] (oneFile "a\nb.eql")).names, PlainName name := by
    rw [Inputs.names, files]
    exact List.forall_mem_singleton.mpr ⟨by decide, by decide⟩
  refine ⟨_, _, ran, unlocked, stateless, plain, unquoted_oneFile files, batch.unextended, ?_⟩
  rintro ⟨returns, -⟩
  obtain ⟨report, last, rerun⟩ := returns.mpr ⟨_, _, ran⟩
  rw [rerun] at twice
  cases twice

end Migrate
end Epochs.Ql
