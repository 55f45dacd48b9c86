import Epochs.Ql.Migrate

/-! Migrations that are run again: after a run that ended, after one that was stopped between its
two writes, and with further files. The second run reads back what the first one wrote, so all
depends on which names a lock keeps and which schemas a state file keeps.
-/

namespace Epochs.Ql.Migrate

open Lib Text SchemaRegistry

-- What a lock keeps

def kept (name : String) : List String :=
  ((splitChars (· = '\n') name.toList).map fun line => trim (String.ofList (dropReturn line))).filter
    fun line => line ≠ "" ∧ !startsWith line "#"

/-- A name that a lock keeps: a line of its own, without white space around it, that is neither
blank nor a comment.
-/
structure Lockable (name : String) : Prop where
  unbroken : '\n' ∉ name.toList
  trimmed : trim name = name
  nonempty : name ≠ ""
  uncommented : startsWith name "#" = false

instance (name : String) : Decidable (Lockable name) :=
  decidable_of_iff
    ('\n' ∉ name.toList ∧ trim name = name ∧ name ≠ "" ∧ startsWith name "#" = false)
    ⟨fun ⟨unbroken, trimmed, nonempty, uncommented⟩ => ⟨unbroken, trimmed, nonempty, uncommented⟩,
      fun lockable => ⟨lockable.unbroken, lockable.trimmed, lockable.nonempty, lockable.uncommented⟩⟩

theorem lockText_eq (names : List String) : lockText names = unlines (lockHeader :: names) := rfl

/-- What is read back from a lock, name by name. -/
theorem lockedNames_lockText (names : List String)
    : lockedNames (lockText names) = names.flatMap kept := by
  have header : kept lockHeader = [] := by decide
  have each : lockedNames (lockText names) = (lockHeader :: names).flatMap kept := by
    rw [lockedNames, lockText_eq, lines_unlines_eq, List.map_flatMap, List.filter_flatMap]
    simp only [List.map_map]
    rfl
  rw [each, List.flatMap_cons, header, List.nil_append]

variable {name : String}

theorem Lockable.ends (lockable : Lockable name)
    : ∀ char ∈ name.toList.getLast?, isWhitespace char = false := by
  have chars : trimChars name.toList = name.toList := by
    simpa [trim] using congrArg String.toList lockable.trimmed
  rw [← chars]
  exact (trimChars_solid name.toList).2

theorem split_of_unbroken (unbroken : '\n' ∉ name.toList)
    : splitChars (· = '\n') name.toList = [name.toList] := by
  refine splitChars_of_none fun char member => ?_
  rw [decide_eq_false_iff_not]
  rintro rfl
  exact unbroken member

theorem Lockable.dropReturn (lockable : Lockable name)
    : dropReturn name.toList = name.toList := by
  refine if_neg fun cut => ?_
  have solid := lockable.ends '\r' cut
  exact absurd solid (by decide)

theorem kept_of_lockable (lockable : Lockable name) : kept name = [name] := by
  simp [kept, split_of_unbroken lockable.unbroken, lockable.dropReturn, lockable.trimmed,
    lockable.nonempty, lockable.uncommented]

variable {line : String}

/-- A lockable line of a name is kept. -/
theorem mem_kept_of_line (lockable : Lockable line)
    (inName : line.toList ∈ splitChars (· = '\n') name.toList)
    : line ∈ kept name := by
  rw [kept, List.mem_filter, List.mem_map]
  refine ⟨⟨line.toList, inName, ?_⟩, ?_⟩
  · rw [lockable.dropReturn, String.ofList_toList, lockable.trimmed]
  · simp [lockable.nonempty, lockable.uncommented]

theorem unbroken_of_mem_splitChars {chars line : List Char}
    (inSplit : line ∈ splitChars (· = '\n') chars)
    : '\n' ∉ dropReturn line := by
  intro broken
  have inLine : '\n' ∈ line := by
    unfold dropReturn at broken
    split at broken
    · exact (List.dropLast_prefix line).subset broken
    · exact broken
  exact absurd (separator_not_mem_splitChars inSplit '\n' inLine) (by decide)

/-- A line that counts in a lock. -/
theorem lockable_of_line {line : List Char} (unbroken : '\n' ∉ line)
    (counts : trim (String.ofList line) ≠ "" ∧ !startsWith (trim (String.ofList line)) "#")
    : Lockable (trim (String.ofList line)) := by
  refine ⟨fun broken => ?_, ?_, counts.1, by simpa using counts.2⟩
  · rw [trim, String.toList_ofList, String.toList_ofList] at broken
    exact unbroken (mem_of_mem_trimChars broken)
  · rw [trim, trim, String.toList_ofList, trimChars_trimChars]

/-- Everything a lock keeps of a name is lockable. -/
theorem lockable_of_kept (member : line ∈ kept name) : Lockable line := by
  rw [kept, List.mem_filter, List.mem_map] at member
  obtain ⟨⟨chars, inSplit, rfl⟩, counts⟩ := member
  exact lockable_of_line (unbroken_of_mem_splitChars inSplit) (of_decide_eq_true counts)

/-- Everything that is read from a lock is lockable. -/
theorem lockable_of_lockedNames {text : String} (member : line ∈ lockedNames text)
    : Lockable line := by
  rw [lockedNames, List.mem_filter, List.mem_map] at member
  obtain ⟨⟨cut, inLines, rfl⟩, counts⟩ := member
  obtain ⟨chars, inParts, rfl⟩ := List.mem_map.mp inLines
  refine lockable_of_line ?_ (of_decide_eq_true counts)
  rcases List.mem_append.mp inParts with ended | last
  · obtain ⟨part, inFront, rfl⟩ := List.mem_map.mp ended
    exact unbroken_of_mem_splitChars ((List.dropLast_prefix _).subset inFront)
  · have inSplit := List.mem_of_getLast? (Option.mem_toList.mp (List.mem_of_mem_filter last))
    exact fun broken => absurd (separator_not_mem_splitChars inSplit '\n' broken) (by decide)

variable {names : List String}

theorem flatMap_kept (lockable : ∀ name ∈ names, Lockable name)
    : names.flatMap kept = names := by
  rw [List.flatMap_congr fun name member => kept_of_lockable (lockable name member)]
  simp

def lost (names : List String) : List String := names.filter fun name => ¬ Lockable name

def linesOf (names : List String) : List (List Char) :=
  names.flatMap fun name => splitChars (· = '\n') name.toList

theorem linesOf_cons (name : String) (rest : List String)
    : linesOf (name :: rest) = splitChars (· = '\n') name.toList ++ linesOf rest := rfl

theorem linesOf_of_lockText {first second : List String} (same : lockText first = lockText second)
    : linesOf first = linesOf second := by
  have split := congrArg (fun text => splitChars (· = '\n') text.toList) same
  simp only [lockText_eq, splitChars_unlines, List.flatMap_cons] at split
  exact List.append_cancel_left (List.append_cancel_right split)

theorem linesOf_of_lockable (lockable : ∀ name ∈ names, Lockable name)
    : linesOf names = names.map String.toList := by
  rw [linesOf, List.map_eq_flatMap]
  exact List.flatMap_congr fun name member => split_of_unbroken (lockable name member).unbroken

def lockables (names : List String) : List String := names.filter fun name => Lockable name

theorem lockable_of_mem_lockables
    : ∀ name ∈ lockables names, Lockable name := by
  intro name member
  simpa using (List.mem_filter.mp member).2

theorem lockables_cons (name : String) (rest : List String)
    : lockables (name :: rest) = if Lockable name then name :: lockables rest else lockables rest := by
  by_cases lockable : Lockable name <;> simp [lockables, lockable]

theorem lost_cons (name : String) (rest : List String)
    : lost (name :: rest) = if Lockable name then lost rest else name :: lost rest := by
  by_cases lockable : Lockable name <;> simp [lost, lockable]

theorem length_linesOf (names : List String)
    : (linesOf names).length = (lockables names).length + (linesOf (lost names)).length := by
  induction names with
  | nil => rfl
  | cons name rest ih =>
    rw [lockables_cons, lost_cons]
    split
    · rename_i lockable
      have one := split_of_unbroken lockable.unbroken
      rw [linesOf_cons, one, List.length_append, ih, List.length_singleton, List.length_cons]
      omega
    · rw [linesOf_cons, linesOf_cons, List.length_append, List.length_append, ih]
      omega

theorem length_flatMap_kept (names : List String)
    : (names.flatMap kept).length = (lockables names).length + ((lost names).flatMap kept).length := by
  induction names with
  | nil => rfl
  | cons name rest ih =>
    rw [lockables_cons, lost_cons, List.flatMap_cons, List.length_append, ih]
    split
    · rename_i lockable
      rw [kept_of_lockable lockable]
      simp only [List.length_cons, List.length_nil]
      omega
    · rw [List.flatMap_cons, List.length_append]
      omega

/-- When the lost names leave nothing behind, what is kept are the names that can be. -/
theorem flatMap_kept_of_traceless
    (traceless : ∀ name ∈ lost names, kept name = [])
    : names.flatMap kept = lockables names := by
  induction names with
  | nil => rfl
  | cons name rest ih =>
    rw [lost_cons] at traceless
    rw [List.flatMap_cons, lockables_cons]
    split
    · rename_i lockable
      rw [if_pos lockable] at traceless
      rw [kept_of_lockable lockable, ih traceless]
      rfl
    · rename_i unlockable
      rw [if_neg unlockable] at traceless
      obtain ⟨here, later⟩ := List.forall_mem_cons.mp traceless
      rw [here, ih later, List.nil_append]

/-- When the lines of the lockable names stand before all others, so do the names. -/
theorem eq_append_of_linesOf
    (traceless : ∀ name ∈ lost names, kept name = [])
    (lines : (lockables names).map String.toList ++ linesOf (lost names) = linesOf names)
    : names = lockables names ++ lost names := by
  induction names with
  | nil => rfl
  | cons name rest ih =>
    by_cases lockable : Lockable name
    · rw [lost_cons, if_pos lockable] at traceless
      rw [lockables_cons, lost_cons, if_pos lockable, if_pos lockable] at lines ⊢
      rw [linesOf_cons, split_of_unbroken lockable.unbroken, List.map_cons,
        List.cons_append, List.singleton_append] at lines
      rw [List.cons_append, ← ih traceless (List.tail_eq_of_cons_eq lines)]
    · -- a lockable name further on would be the first line of this one
      have none : lockables (name :: rest) = [] := by
        cases found : lockables (name :: rest) with
        | nil => rfl
        | cons first others =>
          exfalso
          have firstLockable : Lockable first :=
            lockable_of_mem_lockables first (by rw [found]; exact List.mem_cons_self)
          have inName : first.toList ∈ splitChars (· = '\n') name.toList := by
            rw [found, List.map_cons, List.cons_append, linesOf_cons] at lines
            cases parts : splitChars (· = '\n') name.toList with
            | nil => exact absurd parts (splitChars_ne_nil _ _)
            | cons part more =>
              rw [parts, List.cons_append] at lines
              rw [(List.cons.inj lines).1]
              exact List.mem_cons_self
          have nothing := traceless name (by rw [lost_cons, if_neg lockable]; exact List.mem_cons_self)
          have something := mem_kept_of_line firstLockable inName
          rw [nothing] at something
          cases something
      rw [none, List.nil_append, lost, List.filter_eq_self.mpr]
      intro other member
      have not := List.filter_eq_nil_iff.mp none other member
      simpa using not

/-- The lock that is written by a run after one that was stopped: what the first lock kept, and
then the names it did not keep.
-/
theorem lockText_again_iff (locked names : List String)
    : lockText (locked ++ names.flatMap kept ++ lost names) = lockText (locked ++ names)
      ↔ names = lockables names ++ lost names ∧ ∀ name ∈ lost names, kept name = [] := by
  constructor
  · intro same
    have keptLockable : ∀ name ∈ names.flatMap kept, Lockable name := by
      intro name member
      obtain ⟨source, -, inKept⟩ := List.mem_flatMap.mp member
      exact lockable_of_kept inKept
    have lines : (names.flatMap kept).map String.toList ++ linesOf (lost names) = linesOf names := by
      have split := linesOf_of_lockText same
      simp only [linesOf, List.flatMap_append, List.append_assoc] at split
      rw [← linesOf_of_lockable keptLockable]
      exact List.append_cancel_left split
    have traceless : ∀ name ∈ lost names, kept name = [] := by
      have lengths := congrArg List.length lines
      rw [List.length_append, List.length_map, length_linesOf names, length_flatMap_kept] at lengths
      have none : (lost names).flatMap kept = [] := List.length_eq_zero_iff.mp (by omega)
      exact List.flatMap_eq_nil_iff.mp none
    rw [flatMap_kept_of_traceless traceless] at lines
    exact ⟨eq_append_of_linesOf traceless lines, traceless⟩
  · rintro ⟨ordered, traceless⟩
    rw [flatMap_kept_of_traceless traceless, List.append_assoc, ← ordered]

-- What the files describe

abbrev File := String × Except EpochsError String

def statementsOf : List File → Option (List DdlStatement)
  | [] => some []
  | (_, .error _) :: _ => none
  | (_, .ok source) :: rest =>
    match parseMigration source, statementsOf rest with
    | .ok stmts, some later => some (stmts ++ later)
    | _, _ => none

def pendingIn (lock : List String) (files : List File) : List File :=
  files.filter fun file => file.1 ∉ lock

def lockedIn (lock : List String) (files : List File) : List File :=
  files.filter fun file => file.1 ∈ lock

theorem applyStatements_append {registry last : SchemaRegistry} {first second : List DdlStatement}
    : registry.applyStatements (first ++ second) = .ok last
      ↔ ∃ middle, registry.applyStatements first = .ok middle
        ∧ middle.applyStatements second = .ok last := by
  induction first generalizing registry with
  | nil => simp [applyStatements]
  | cons statement rest ih =>
    rw [List.cons_append, applyStatements_cons]
    constructor
    · rintro ⟨next, applied, later⟩
      obtain ⟨middle, inFirst, inSecond⟩ := ih.mp later
      exact ⟨middle, applyStatements_cons.mpr ⟨next, applied, inFirst⟩, inSecond⟩
    · rintro ⟨middle, inFirst, inSecond⟩
      obtain ⟨next, applied, later⟩ := applyStatements_cons.mp inFirst
      exact ⟨next, applied, ih.mpr ⟨middle, later, inSecond⟩⟩

variable {statements : List DdlStatement}

theorem statementsOf_cons {file : File} {rest : List File}
    : statementsOf (file :: rest) = some statements
      ↔ ∃ source here later, file.2 = .ok source ∧ parseMigration source = .ok here
        ∧ statementsOf rest = some later ∧ statements = here ++ later := by
  obtain ⟨name, text⟩ := file
  cases text with
  | error error => simp [statementsOf]
  | ok source =>
    rw [statementsOf]
    cases parsed : parseMigration source with
    | error fault => simp [parsed]
    | ok here =>
      cases statementsOf rest with
      | none => simp
      | some later => simp [parsed, eq_comm]

theorem statementsOf_append {first second : List File}
    : statementsOf (first ++ second) = some statements
      ↔ ∃ here later, statementsOf first = some here ∧ statementsOf second = some later
        ∧ statements = here ++ later := by
  induction first generalizing statements with
  | nil => simp [statementsOf]
  | cons file rest ih =>
    rw [List.cons_append, statementsOf_cons]
    constructor
    · rintro ⟨source, here, later, read, parsed, others, rfl⟩
      obtain ⟨middle, last, inFirst, inSecond, rfl⟩ := ih.mp others
      exact ⟨here ++ middle, last, statementsOf_cons.mpr ⟨source, here, middle, read, parsed,
        inFirst, rfl⟩, inSecond, (List.append_assoc _ _ _).symm⟩
    · rintro ⟨front, last, inFirst, inSecond, rfl⟩
      obtain ⟨source, here, middle, read, parsed, others, rfl⟩ := statementsOf_cons.mp inFirst
      exact ⟨source, here, middle ++ last, read, parsed, ih.mpr ⟨middle, last, others, inSecond, rfl⟩,
        List.append_assoc _ _ _⟩

variable {progress : Progress}

/-- One file: it is locked, or its statements are applied. -/
theorem step_eq_ok {next : Progress} {file : File}
    : Inputs.step progress file = .ok next
      ↔ (file.1 ∈ progress.lock ∧ next = progress.skip file.1)
        ∨ (file.1 ∉ progress.lock ∧ ∃ source here schema, file.2 = .ok source
          ∧ parseMigration source = .ok here
          ∧ progress.schema.applyStatements here = .ok schema
          ∧ next = ⟨progress.lock ++ [file.1], schema, progress.applied ++ [file.1],
            progress.skipped⟩) := by
  obtain ⟨name, text⟩ := file
  rw [Inputs.step]
  dsimp only
  split
  · rename_i locked
    simp [locked, eq_comm]
  · rename_i pending
    simp only [pending, false_and, not_false_eq_true, true_and, false_or]
    cases text with
    | error error => simp
    | ok source =>
      simp only [Except.ok.injEq, Progress.apply, bind, Except.bind, pure, Except.pure]
      cases parsed : parseMigration source with
      | error fault => simp [parsed]
      | ok here =>
        dsimp only
        cases applied : progress.schema.applyStatements here with
        | error error => simp [parsed, applied, Except.mapError]
        | ok schema => simp [parsed, applied, Except.mapError, eq_comm]

theorem pendingIn_concat {lock : List String} {name : String} {files : List File}
    (absent : name ∉ files.map Prod.fst)
    : pendingIn (lock ++ [name]) files = pendingIn lock files
      ∧ lockedIn (lock ++ [name]) files = lockedIn lock files := by
  have same : ∀ file ∈ files, file.1 ∈ lock ++ [name] ↔ file.1 ∈ lock := by
    intro file member
    have different : file.1 ≠ name := fun same => absent (same ▸ List.mem_map_of_mem member)
    simp [different]
  constructor
  · exact List.filter_congr fun file member => by simp only [same file member]
  · exact List.filter_congr fun file member => by simp only [same file member]

variable {files : List File}

/-- All files, by the files that are locked at the start: names are different, so that no file is
locked by another of the same run.
-/
theorem steps_eq_ok {last : Progress}
    (distinct : (files.map Prod.fst).Nodup)
    : files.foldlM Inputs.step progress = .ok last
      ↔ ∃ statements schema, statementsOf (pendingIn progress.lock files) = some statements
        ∧ progress.schema.applyStatements statements = .ok schema
        ∧ last = ⟨progress.lock ++ (pendingIn progress.lock files).map Prod.fst, schema,
            progress.applied ++ (pendingIn progress.lock files).map Prod.fst,
            progress.skipped ++ (lockedIn progress.lock files).map Prod.fst⟩ := by
  induction files generalizing progress with
  | nil =>
    obtain ⟨lock, schema, applied, skipped⟩ := progress
    simp [pendingIn, lockedIn, statementsOf, applyStatements, pure, Except.pure,
      eq_comm]
  | cons file rest ih =>
    obtain ⟨absent, restDistinct⟩ := List.nodup_cons.mp distinct
    rw [List.foldlM_cons, except_bind_eq_ok]
    by_cases locked : file.1 ∈ progress.lock
    · have pending : pendingIn progress.lock (file :: rest) = pendingIn progress.lock rest := by
        simp [pendingIn, locked]
      have already : lockedIn progress.lock (file :: rest) = file :: lockedIn progress.lock rest := by
        simp [lockedIn, locked]
      rw [pending, already]
      constructor
      · rintro ⟨next, stepped, onward⟩
        rcases step_eq_ok.mp stepped with ⟨-, rfl⟩ | ⟨unlocked, -⟩
        · obtain ⟨statements, schema, read, applied, rfl⟩ := (ih restDistinct).mp onward
          exact ⟨statements, schema, read, applied, by simp [Progress.skip]⟩
        · exact absurd locked unlocked
      · rintro ⟨statements, schema, read, applied, rfl⟩
        refine ⟨progress.skip file.1, step_eq_ok.mpr (.inl ⟨locked, rfl⟩), (ih restDistinct).mpr
          ⟨statements, schema, read, applied, by simp [Progress.skip]⟩⟩
    · have pending : pendingIn progress.lock (file :: rest)
          = file :: pendingIn progress.lock rest := by
        simp [pendingIn, locked]
      have already : lockedIn progress.lock (file :: rest) = lockedIn progress.lock rest := by
        simp [lockedIn, locked]
      obtain ⟨samePending, sameLocked⟩ := @pendingIn_concat progress.lock file.1 rest absent
      rw [pending, already]
      constructor
      · rintro ⟨next, stepped, onward⟩
        rcases step_eq_ok.mp stepped with ⟨inLock, -⟩ | ⟨-, source, here, middle, text, parsed,
          applied, rfl⟩
        · exact absurd inLock locked
        · obtain ⟨later, schema, read, appliedLater, rfl⟩ := (ih restDistinct).mp onward
          dsimp only at read appliedLater
          rw [samePending] at read
          refine ⟨here ++ later, schema, statementsOf_cons.mpr ⟨source, here, later, text, parsed,
            read, rfl⟩, applyStatements_append.mpr ⟨middle, applied, appliedLater⟩, ?_⟩
          simp [samePending, sameLocked]
      · rintro ⟨statements, schema, read, applied, rfl⟩
        obtain ⟨source, here, later, text, parsed, others, rfl⟩ := statementsOf_cons.mp read
        obtain ⟨middle, inFirst, inSecond⟩ := applyStatements_append.mp applied
        refine ⟨_, step_eq_ok.mpr (.inr ⟨locked, source, here, middle, text, parsed, inFirst, rfl⟩),
          (ih restDistinct).mpr ⟨later, schema, ?_, inSecond, ?_⟩⟩
        · rw [samePending, others]
        · simp [samePending, sameLocked]

variable {inputs : Inputs}

/-- What a run computes: the pending files are locked and their statements applied in order. -/
theorem prepared_eq_ok (distinct : inputs.names.Nodup)
    : inputs.prepared = .ok progress
      ↔ ∃ lock start statements schema, inputs.locked = .ok lock ∧ inputs.schema = .ok start
        ∧ statementsOf (pendingIn lock inputs.files) = some statements
        ∧ start.applyStatements statements = .ok schema
        ∧ progress = ⟨lock ++ (pendingIn lock inputs.files).map Prod.fst, schema,
            (pendingIn lock inputs.files).map Prod.fst, (lockedIn lock inputs.files).map Prod.fst⟩ := by
  rw [Inputs.prepared]
  cases inputs.locked with
  | error error => simp [bind, Except.bind, Except.mapError]
  | ok lock =>
    cases inputs.schema with
    | error error => simp [bind, Except.bind, Except.mapError]
    | ok start =>
      simp only [Except.mapError, bind, Except.bind]
      rw [steps_eq_ok distinct]
      simp

variable {lock : List String}

theorem lockable_of_locked (read : inputs.locked = .ok lock)
    : ∀ name ∈ lock, Lockable name := by
  intro name member
  unfold Inputs.locked at read
  split at read
  · cases read
    cases member
  · rename_i text _
    cases text with
    | error error => cases read
    | ok text =>
      cases read
      exact lockable_of_lockedNames member

theorem keyed_of_schema {start : SchemaRegistry}
    (read : inputs.schema = .ok start)
    : start.Keyed := by
  unfold Inputs.schema at read
  split at read
  · cases read
    exact each_new
  · rename_i text _
    cases text with
    | error error => cases read
    | ok text => exact fun entry member => (parse_readable read entry member).1

/-- The schema that the state file and the statements of the pending files describe. -/
def Inputs.Describes (inputs : Inputs) (schema : SchemaRegistry) : Prop :=
  ∃ lock start statements, inputs.locked = .ok lock ∧ inputs.schema = .ok start
    ∧ statementsOf (pendingIn lock inputs.files) = some statements
    ∧ start.applyStatements statements = .ok schema

theorem Inputs.Describes.keyed {schema : SchemaRegistry}
    (describes : inputs.Describes schema)
    : schema.Keyed := by
  obtain ⟨lock, start, statements, -, read, -, applied⟩ := describes
  exact applyStatements_keyed (keyed_of_schema read) applied

theorem Inputs.Describes.eq {first second : SchemaRegistry}
    (describes : inputs.Describes first) (also : inputs.Describes second)
    : first = second := by
  obtain ⟨lock, start, statements, locked, read, written, applied⟩ := describes
  obtain ⟨lock', start', statements', locked', read', written', applied'⟩ := also
  obtain rfl := Except.ok.inj (locked.symm.trans locked')
  obtain rfl := Except.ok.inj (read.symm.trans read')
  obtain rfl := Option.some.inj (written.symm.trans written')
  exact Except.ok.inj (applied.symm.trans applied')

-- A run after a run

variable {repoPath : Path} {world next : World} {report : MigrationReport}

theorem Accessible.distinct (accessible : Accessible repoPath world)
    : (found repoPath world).names.Nodup := by
  have names := World.nodup_namesIn accessible.ready.formed
    (fun name => extension name = some "eql") (World.lexical [] repoPath ++ ["migrations"])
  simpa [Inputs.names, found, inputsAt, Function.comp_def] using names

theorem mem_lock_iff (lockable : ∀ name ∈ lock, Lockable name)
    (present : name ∈ files.map Prod.fst)
    : name ∈ lock ++ ((pendingIn lock files).map Prod.fst).flatMap kept ↔ Lockable name := by
  constructor
  · intro member
    rcases List.mem_append.mp member with old | new
    · exact lockable name old
    · obtain ⟨source, -, inKept⟩ := List.mem_flatMap.mp new
      exact lockable_of_kept inKept
  · intro isLockable
    by_cases old : name ∈ lock
    · exact List.mem_append_left _ old
    · obtain ⟨file, inFiles, rfl⟩ := List.mem_map.mp present
      refine List.mem_append_right _ (List.mem_flatMap.mpr ⟨file.1, List.mem_map_of_mem ?_, ?_⟩)
      · exact List.mem_filter.mpr ⟨inFiles, by simpa using old⟩
      · simp [kept_of_lockable isLockable]

theorem pending_again {lock : List String} {files : List File}
    (lockable : ∀ name ∈ lock, Lockable name)
    : pendingIn (lock ++ ((pendingIn lock files).map Prod.fst).flatMap kept) files
      = files.filter fun file => ¬ Lockable file.1 := by
  refine List.filter_congr fun file member => ?_
  rw [decide_eq_decide, mem_lock_iff lockable (List.mem_map_of_mem member)]

theorem locked_again (inputs : Inputs) {lock : List String}
    (lockable : ∀ name ∈ lock, Lockable name) (names : List String)
    : (inputs.locking (lock ++ names)).locked = .ok (lock ++ names.flatMap kept) := by
  have text : (inputs.locking (lock ++ names)).locked
      = .ok (lockedNames (lockText (lock ++ names))) := rfl
  rw [text, lockedNames_lockText, List.flatMap_append, flatMap_kept lockable]

/-- A run that is possible: what it reports, and what the next run finds. -/
theorem Accessible.migrates {start schema : SchemaRegistry}
    (accessible : Accessible repoPath world)
    (locked : (found repoPath world).locked = .ok lock)
    (read : (found repoPath world).schema = .ok start)
    (written : statementsOf (pendingIn lock (found repoPath world).files) = some statements)
    (applied : start.applyStatements statements = .ok schema)
    : ∃ next, migrate repoPath world
          = .ok
              { applied := (pendingIn lock (found repoPath world).files).map Prod.fst
                skipped := (lockedIn lock (found repoPath world).files).map Prod.fst
                schema } next
        ∧ Accessible repoPath next
        ∧ found repoPath next
          = ((found repoPath world).locking
              (lock ++ (pendingIn lock (found repoPath world).files).map Prod.fst)).saving schema :=
  accessible.migrate_of_ok ((prepared_eq_ok accessible.distinct).mpr
    ⟨lock, start, statements, schema, locked, read, written, applied, rfl⟩)

/-- A run that returned was possible. -/
theorem of_migrate (alive : world.deadline = none) (formed : world.fs.WellFormed)
    (ran : migrate repoPath world = .ok report next)
    : ∃ lock start statements schema, Accessible repoPath world
        ∧ (found repoPath world).locked = .ok lock ∧ (found repoPath world).schema = .ok start
        ∧ statementsOf (pendingIn lock (found repoPath world).files) = some statements
        ∧ start.applyStatements statements = .ok schema
        ∧ report =
            { applied := (pendingIn lock (found repoPath world).files).map Prod.fst
              skipped := (lockedIn lock (found repoPath world).files).map Prod.fst
              schema }
        ∧ Accessible repoPath next
        ∧ found repoPath next
          = ((found repoPath world).locking
              (lock ++ (pendingIn lock (found repoPath world).files).map Prod.fst)).saving schema := by
  obtain ⟨accessible, progress, done, rfl⟩ := accessible_of_migrate alive formed ran
  obtain ⟨lock, start, statements, schema, locked, read, written, applied, rfl⟩ :=
    (prepared_eq_ok accessible.distinct).mp done
  obtain ⟨last, returned, again, left⟩ := accessible.migrates locked read written applied
  obtain ⟨-, rfl⟩ := EStateM.Result.ok.inj (ran.symm.trans returned)
  exact ⟨lock, start, statements, schema, accessible, locked, read, written, applied, rfl, again, left⟩

theorem describes_of_migrate (alive : world.deadline = none) (formed : world.fs.WellFormed)
    (ran : migrate repoPath world = .ok report next)
    : (found repoPath world).Describes report.schema := by
  obtain ⟨lock, start, statements, schema, -, locked, read, written, applied, rfl, -, -⟩ :=
    of_migrate alive formed ran
  exact ⟨lock, start, statements, locked, read, written, applied⟩

/-- A second run finds everything done exactly when each file name can stand in a lock and the
schema that the files describe can be written in a state file.
-/
theorem migrate_again_iff (alive : world.deadline = none) (formed : world.fs.WellFormed)
    (ran : migrate repoPath world = .ok report next)
    : (∃ again last, migrate repoPath next = .ok again last
        ∧ again.applied = []
        ∧ again.skipped = (found repoPath world).names
        ∧ again.schema = report.schema
        ∧ found repoPath last = found repoPath next)
      ↔ (∀ name ∈ (found repoPath world).names, Lockable name)
        ∧ ∀ schema, (found repoPath world).Describes schema → schema.Storable := by
  obtain ⟨lock, start, statements, schema, accessible, locked, read, written, applied, rfl,
    accessibleNext, left⟩ := of_migrate alive formed ran
  have describes : (found repoPath world).Describes schema :=
    ⟨lock, start, statements, locked, read, written, applied⟩
  have lockable := lockable_of_locked locked
  have files : (found repoPath next).files = (found repoPath world).files := by rw [left]; rfl
  have lockedNext : (found repoPath next).locked = .ok (lock
      ++ ((pendingIn lock (found repoPath world).files).map Prod.fst).flatMap kept) := by
    rw [left]
    exact locked_again (found repoPath world) lockable _
  have schemaNext : (found repoPath next).schema = SchemaRegistry.parse schema.toStateFile := by
    rw [left]
    rfl
  have pending := @pending_again lock (found repoPath world).files lockable
  constructor
  · rintro ⟨again, last, rerun, none, -, sameSchema, -⟩
    obtain ⟨lock', start', statements', schema', -, locked', read', written', applied', rfl, -, -⟩ :=
      of_migrate accessibleNext.alive accessibleNext.formed rerun
    obtain rfl := Except.ok.inj (lockedNext.symm.trans locked')
    rw [files, pending] at written'
    rw [files, pending, List.map_eq_nil_iff] at none
    rw [none] at written'
    cases written'
    cases applied'
    refine ⟨fun name member => ?_, fun other described => ?_⟩
    · obtain ⟨file, inFiles, rfl⟩ := List.mem_map.mp member
      simpa using List.filter_eq_nil_iff.mp none file inFiles
    · obtain rfl := describes.eq described
      rw [schemaNext] at read'
      dsimp only at sameSchema
      rw [sameSchema] at read'
      exact (SchemaRegistry.parse_toStateFile_iff describes.keyed).mp read'
  · rintro ⟨allLockable, storable⟩
    have nothing : pendingIn (lock
        ++ ((pendingIn lock (found repoPath world).files).map Prod.fst).flatMap kept)
        (found repoPath next).files = [] := by
      rw [files, pending, List.filter_eq_nil_iff]
      intro file member
      simpa using allLockable file.1 (List.mem_map_of_mem member)
    have readNext : (found repoPath next).schema = .ok schema :=
      schemaNext.trans (SchemaRegistry.parse_toStateFile describes.keyed (storable schema describes))
    obtain ⟨last, rerun, -, leftLast⟩ := accessibleNext.migrates lockedNext readNext
      (by rw [nothing]; rfl) rfl
    refine ⟨_, last, rerun, by rw [nothing]; rfl, ?_, rfl, ?_⟩
    · have all : lockedIn (lock
          ++ ((pendingIn lock (found repoPath world).files).map Prod.fst).flatMap kept)
          (found repoPath next).files = (found repoPath world).files := by
        rw [files, lockedIn, List.filter_eq_self]
        intro file member
        have inNames := List.mem_map_of_mem (f := Prod.fst) member
        simpa using (mem_lock_iff lockable inNames).mpr (allLockable file.1 inNames)
      rw [all]
      rfl
    · have same : ((pendingIn lock (found repoPath world).files).map Prod.fst).flatMap kept
          = (pendingIn lock (found repoPath world).files).map Prod.fst := by
        refine flatMap_kept fun name member => ?_
        obtain ⟨file, inPending, rfl⟩ := List.mem_map.mp member
        exact allLockable file.1 (List.mem_map_of_mem (List.mem_of_mem_filter inPending))
      rw [nothing, List.map_nil, List.append_nil, same] at leftLast
      rw [leftLast, left]
      rfl

def withFiles (files : List (String × String)) : World :=
  { World.bare with
    fs := files.foldl
      (fun fs file =>
        (fs.create ["r", "migrations", file.1]).append fs.nextInode (Utf8.encode file.2))
      ((FileSystem.empty.mkdir ["r"]).mkdir ["r", "migrations"]) }

theorem withFiles_formed (files : List (String × String)) : (withFiles files).fs.WellFormed := by
  have dirs : ((FileSystem.empty.mkdir ["r"]).mkdir ["r", "migrations"]).WellFormed :=
    (FileSystem.wellFormed_empty.mkdir (by simp) (by decide)).mkdir (by simp) (by decide)
  rw [withFiles]
  dsimp only
  generalize (FileSystem.empty.mkdir ["r"]).mkdir ["r", "migrations"] = fs at dirs
  induction files generalizing fs with
  | nil => exact dirs
  | cons file rest ih => exact ih _ ((dirs.create (by simp)).append _ _)

def oneFile (name : String) : World := withFiles [(name, "CREATE COLLECTION a KEY b INT")]

def oneSchema : SchemaRegistry := SchemaRegistry.new.setCollection "a" ⟨"a", [⟨"b", .int⟩], []⟩

theorem migrate_oneFile
    : migrate ["r"] (oneFile "a.eql")
      = .ok ⟨["a.eql"], [], oneSchema⟩ (Run.stateOf (migrate ["r"] (oneFile "a.eql"))) :=
  Run.eq_ok_of_valueOf (by decide +kernel)

theorem migrate_again_one
    : ∃ report next again last, migrate ["r"] (oneFile "a.eql") = .ok report next
        ∧ migrate ["r"] next = .ok again last
        ∧ again.applied = []
        ∧ again.skipped = (found ["r"] (oneFile "a.eql")).names
        ∧ again.schema = report.schema
        ∧ found ["r"] last = found ["r"] next := by
  have names : (found ["r"] (oneFile "a.eql")).names = ["a.eql"] := by decide +kernel
  have lockable : ∀ name ∈ (found ["r"] (oneFile "a.eql")).names, Lockable name := by
    rw [names]
    decide
  have describes := describes_of_migrate rfl (withFiles_formed _) migrate_oneFile
  obtain ⟨again, last, rerun⟩ := (migrate_again_iff rfl (withFiles_formed _) migrate_oneFile).mpr
    ⟨lockable, fun schema described => describes.eq described ▸ by decide⟩
  exact ⟨_, _, again, last, migrate_oneFile, rerun⟩

/-- A file whose name looks like a comment is applied again by the second run, which fails. -/
theorem migrate_again_comment
    : ∃ report next, migrate ["r"] (oneFile "#a.eql") = .ok report next
        ∧ ∀ again last, migrate ["r"] next ≠ .ok again last := by
  have first : Run.valueOf (migrate ["r"] (oneFile "#a.eql")) = some ⟨["#a.eql"], [], oneSchema⟩ := by
    decide +kernel
  have second : Run.valueOf (migrate ["r"] (Run.stateOf (migrate ["r"] (oneFile "#a.eql")))) = none := by
    decide +kernel
  refine ⟨_, _, Run.eq_ok_of_valueOf first, fun again last returned => ?_⟩
  rw [returned] at second
  cases second

-- A run after one that was stopped

/-- What lets a stop between the two writes do no harm: pending files that can be locked come before
those that cannot, of which a lock keeps nothing at all, and these alone describe the same schema as
all pending files. Where every name can be locked this says that the pending files change nothing.
-/
def Inputs.Resumable (inputs : Inputs) : Prop :=
  ∃ lock start pending statements unlocked schema,
    inputs.locked = .ok lock ∧ inputs.schema = .ok start
    ∧ pending = pendingIn lock inputs.files
    ∧ statementsOf pending = some statements ∧ start.applyStatements statements = .ok schema
    ∧ statementsOf (pending.filter fun file => ¬ Lockable file.1) = some unlocked
    ∧ start.applyStatements unlocked = .ok schema
    ∧ pending.map Prod.fst = lockables (pending.map Prod.fst) ++ lost (pending.map Prod.fst)
    ∧ ∀ name ∈ lost (pending.map Prod.fst), kept name = []

theorem lost_names (files : List File)
    : lost (files.map Prod.fst) = (files.filter fun file => ¬ Lockable file.1).map Prod.fst := by
  rw [lost, List.filter_map]
  rfl

theorem unlockable_pending
    (lockable : ∀ name ∈ lock, Lockable name)
    : ((pendingIn lock files).filter fun file => ¬ Lockable file.1)
      = files.filter fun file => ¬ Lockable file.1 := by
  rw [pendingIn, List.filter_filter]
  refine List.filter_congr fun file _ => ?_
  by_cases isLockable : Lockable file.1
  · simp [isLockable]
  · have unlocked : file.1 ∉ lock := fun member => isLockable (lockable _ member)
    simp [isLockable, unlocked]

/-- The run after a stop between the two writes comes to the same lock and the same schema exactly
when the files can be resumed.
-/
theorem migrate_after_stop_iff {halfway : World} (alive : world.deadline = none)
    (formed : world.fs.WellFormed) (ran : migrate repoPath world = .ok report next)
    (stopped : migrateStopped repoPath world = .ok () halfway)
    : (∃ again last, migrate repoPath halfway = .ok again last
        ∧ (found repoPath last).lock = (found repoPath next).lock
        ∧ again.schema = report.schema)
      ↔ (found repoPath world).Resumable := by
  obtain ⟨lock, start, statements, schema, accessible, locked, read, written, applied, rfl,
    -, left⟩ := of_migrate alive formed ran
  have lockable := lockable_of_locked locked
  obtain ⟨middle, returned, accessibleHalfway, leftHalfway⟩ := accessible.migrateStopped_of_ok
    ((prepared_eq_ok accessible.distinct).mpr
      ⟨lock, start, statements, schema, locked, read, written, applied, rfl⟩)
  obtain ⟨-, rfl⟩ := EStateM.Result.ok.inj (stopped.symm.trans returned)
  have lockedHalfway : (found repoPath halfway).locked = .ok (lock
      ++ ((pendingIn lock (found repoPath world).files).map Prod.fst).flatMap kept) := by
    rw [leftHalfway]
    exact locked_again (found repoPath world) lockable _
  have readHalfway : (found repoPath halfway).schema = .ok start := by
    rw [leftHalfway]
    exact read
  have pending : pendingIn (lock
        ++ ((pendingIn lock (found repoPath world).files).map Prod.fst).flatMap kept)
        (found repoPath halfway).files
      = (pendingIn lock (found repoPath world).files).filter fun file => ¬ Lockable file.1 := by
    rw [unlockable_pending lockable, ← pending_again lockable, leftHalfway]
    rfl
  constructor
  · rintro ⟨again, last, rerun, sameLock, sameSchema⟩
    obtain ⟨lock', start', statements', schema', -, locked', read', written', applied', rfl, -,
      leftLast⟩ := of_migrate accessibleHalfway.alive accessibleHalfway.formed rerun
    obtain rfl := Except.ok.inj (lockedHalfway.symm.trans locked')
    obtain rfl := Except.ok.inj (readHalfway.symm.trans read')
    obtain rfl : schema' = schema := sameSchema
    rw [leftLast, left, pending, ← lost_names] at sameLock
    have texts := Except.ok.inj (Option.some.inj sameLock)
    obtain ⟨ordered, traceless⟩ := (lockText_again_iff lock _).mp texts
    rw [pending] at written'
    exact ⟨lock, start, _, statements, statements', schema', locked, read, rfl, written, applied,
      written', applied', ordered, traceless⟩
  · rintro ⟨lock', start', files, statements', unlocked, schema', locked', read', rfl, written',
      applied', lostWritten, lostApplied, ordered, traceless⟩
    obtain rfl := Except.ok.inj (locked.symm.trans locked')
    obtain rfl := Except.ok.inj (read.symm.trans read')
    obtain rfl := Option.some.inj (written.symm.trans written')
    obtain rfl := Except.ok.inj (applied.symm.trans applied')
    obtain ⟨last, rerun, -, leftLast⟩ := accessibleHalfway.migrates lockedHalfway readHalfway
      (by rw [pending]; exact lostWritten) lostApplied
    refine ⟨_, last, rerun, ?_, rfl⟩
    rw [leftLast, left, pending, ← lost_names]
    have texts := (lockText_again_iff lock _).mpr ⟨ordered, traceless⟩
    exact congrArg (fun text => some (Except.ok text)) texts

/-- A file whose name looks like a comment is never locked, so that the run after a stop makes its
collection.
-/
theorem migrate_after_stop_comment
    : ∃ report next halfway again last, migrate ["r"] (oneFile "#a.eql") = .ok report next
        ∧ migrateStopped ["r"] (oneFile "#a.eql") = .ok () halfway
        ∧ migrate ["r"] halfway = .ok again last
        ∧ (found ["r"] last).lock = (found ["r"] next).lock
        ∧ again.schema = report.schema ∧ report.schema = oneSchema := by
  have whole : Run.valueOf (migrate ["r"] (oneFile "#a.eql")) = some ⟨["#a.eql"], [], oneSchema⟩ := by
    decide +kernel
  have part : Run.valueOf (migrateStopped ["r"] (oneFile "#a.eql")) = some () := by decide +kernel
  have locked : (found ["r"] (oneFile "#a.eql")).locked = .ok [] := by decide +kernel
  have read : (found ["r"] (oneFile "#a.eql")).schema = .ok SchemaRegistry.new := by decide +kernel
  have files : (found ["r"] (oneFile "#a.eql")).files
      = [("#a.eql", .ok "CREATE COLLECTION a KEY b INT")] := by decide +kernel
  have resumable : (found ["r"] (oneFile "#a.eql")).Resumable := by
    refine ⟨[], SchemaRegistry.new, _, [.createCollection "a" [("b", .int)]],
      [.createCollection "a" [("b", .int)]], oneSchema, locked, read, rfl, ?_⟩
    rw [files]
    decide +kernel
  obtain ⟨again, last, rerun, same, sameSchema⟩ := (migrate_after_stop_iff rfl (withFiles_formed _)
    (Run.eq_ok_of_valueOf whole) (Run.eq_ok_of_valueOf part)).mpr resumable
  exact ⟨_, _, _, again, last, Run.eq_ok_of_valueOf whole, Run.eq_ok_of_valueOf part, rerun, same,
    sameSchema, rfl⟩

/-- After a stop a migration is locked, and its collection never comes to be. -/
theorem migrate_after_stop_one
    : ∃ report next halfway again last, migrate ["r"] (oneFile "a.eql") = .ok report next
        ∧ migrateStopped ["r"] (oneFile "a.eql") = .ok () halfway
        ∧ migrate ["r"] halfway = .ok again last
        ∧ again.schema ≠ report.schema := by
  have part : Run.valueOf (migrateStopped ["r"] (oneFile "a.eql")) = some () := by decide +kernel
  have after : Run.valueOf (migrate ["r"] (Run.stateOf (migrateStopped ["r"] (oneFile "a.eql"))))
      = some ⟨[], ["a.eql"], SchemaRegistry.new⟩ := by
    decide +kernel
  exact ⟨_, _, _, _, _, migrate_oneFile, Run.eq_ok_of_valueOf part, Run.eq_ok_of_valueOf after,
    by decide⟩

end Epochs.Ql.Migrate
