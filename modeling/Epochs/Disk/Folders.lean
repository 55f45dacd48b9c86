import Epochs.Disk.Paths
import Mathlib.Data.List.Sort
import Mathlib.Data.String.Basic

/-! Files in a directory that a path leads to. Where an entry of the directory stands, and what is
read there, no longer depends on the rest of the file system.
-/

namespace Epochs.World

open Lib Run FileSystem

variable {fs before after : FileSystem} {base place : Path} {parts : List String} {name : String}

-- Directories that were made

def Names (name : String) : Prop := name ≠ "" ∧ name ≠ "." ∧ name ≠ ".."

/-- The path leads to a directory at this place. -/
structure Folder (fs : FileSystem) (parts : List String) (place : Path) : Prop where
  resolved : resolve fs parts = .ok place
  dir : fs.node place = some .dir

variable {world next : World} {path : Path}

theorem dirs_of_makeDirs
    (made : makeDirs base parts world = .ok () next) (dir : world.fs.node path = some .dir)
    : next.fs.node path = some .dir := by
  have adds := (@makeDirs_meets (fun _ => True) base parts world fun _ _ => trivial).of_ok made
  exact adds.1.dirs dir

/-- Making directories leads through directories only, to where the text of the path says. -/
theorem walk_of_makeDirs (more : List String)
    (above : ∀ front, front <+: base → world.fs.node front = some .dir)
    (made : makeDirs base (parts ++ more) world = .ok () next)
    : walk next.fs base parts = .ok (lexical base parts)
      ∧ ∀ front, front <+: lexical base parts → next.fs.node front = some .dir := by
  induction parts generalizing base world with
  | nil => exact ⟨rfl, fun front shorter => dirs_of_makeDirs made (above front shorter)⟩
  | cons part rest ih =>
    rw [List.cons_append, makeDirs] at made
    rw [lexical]
    split
    · rename_i trivial_
      rw [if_pos trivial_] at made
      rw [walk, if_pos trivial_]
      exact ih above made
    · rename_i named
      rw [if_neg named] at made
      split
      · rename_i up
        rw [if_pos up] at made
        rw [walk, if_neg named, if_pos up]
        exact ih (fun front shorter => above front (shorter.trans (List.dropLast_prefix base))) made
      · rename_i down
        rw [if_neg down] at made
        split at made
        · cases made
        · rename_i fits
          -- the part is a directory when the walk goes on below it
          have onward {middle : World} (here : middle.fs.node (base ++ [part]) = some .dir)
              (kept : ∀ front, front <+: base → middle.fs.node front = some .dir)
              (made : makeDirs (base ++ [part]) (rest ++ more) middle = .ok () next)
              : walk next.fs base (part :: rest) = .ok (lexical (base ++ [part]) rest)
                ∧ ∀ front, front <+: lexical (base ++ [part]) rest
                  → next.fs.node front = some .dir := by
            obtain ⟨walked, dirs⟩ := ih (fun front shorter => by
              rcases List.prefix_concat_iff.mp shorter with rfl | higher
              · exact here
              · exact kept front higher) made
            refine ⟨?_, dirs⟩
            rw [walk, if_neg named, if_neg down, if_neg fits]
            split
            · rename_i last
              rw [last, lexical]
            · rw [dirs_of_makeDirs made here]
              exact walked
          rw [get_bind_apply] at made
          cases found : world.fs.node (base ++ [part]) with
          | some node =>
            rw [found] at made
            cases node with
            | dir => exact onward found above made
            | file inode => cases made
          | none =>
            rw [found] at made
            obtain ⟨_, middle, changed, made⟩ := bind_eq_ok.mp made
            have adds := (change_meets (fun fs => fs.mkdir (base ++ [part])) world).of_ok changed
            have node := adds.1
            refine onward ?_ (fun front shorter => ?_) made
            · rw [node, node_mkdir (by simp), if_pos rfl]
            · rw [node, node_mkdir (by simp), above front shorter, ite_self]

/-- Where a directory was made, there is one, and so it is at every path on the way. -/
theorem folder_of_createDirs (more : List String)
    (made : createDirs (parts ++ more) world = .ok () next)
    : Folder next.fs parts (lexical [] parts) := by
  unfold createDirs at made
  split at made
  · cases made
  · rename_i readable
    split at made
    · cases made
    · rename_i short
      obtain ⟨walked, dirs⟩ := walk_of_makeDirs more (fun front shorter => by
        rw [List.prefix_nil.mp shorter, node, if_pos rfl]) made
      refine ⟨?_, dirs _ List.prefix_rfl⟩
      have shorter : textLength parts ≤ textLength (parts ++ more) := by
        simp [textLength]
      rw [resolve, if_neg (fun nul => readable (by
        simp only [List.any_append, nul, Bool.true_or])), if_neg (by omega)]
      exact walked

theorem makeDirs_of_walk (walked : walk world.fs base parts = .ok path)
    (dir : world.fs.node path = some .dir)
    : makeDirs base parts world = .ok () world := by
  induction parts generalizing base with
  | nil => rfl
  | cons part rest ih =>
    rw [walk] at walked
    rw [makeDirs]
    split
    · rename_i trivial_
      rw [if_pos trivial_] at walked
      exact ih walked
    · rename_i named
      rw [if_neg named] at walked
      split
      · rename_i up
        rw [if_pos up] at walked
        exact ih walked
      · rename_i down
        rw [if_neg down] at walked
        split at walked
        · cases walked
        · rename_i fits
          rw [if_neg fits, get_bind_apply]
          split at walked
          · rename_i last
            cases walked
            rw [dir, last]
            rfl
          · split at walked
            · rename_i here
              rw [here]
              exact ih walked
            · cases walked
            · cases walked

/-- Nothing happens when the directory is there. -/
theorem Folder.createDirs (folder : Folder world.fs parts place)
    : createDirs parts world = .ok () world := by
  have resolved := folder.resolved
  unfold resolve at resolved
  unfold World.createDirs
  split at resolved
  · cases resolved
  · rename_i readable
    split at resolved
    · cases resolved
    · rename_i short
      rw [if_neg readable, if_neg short]
      exact makeDirs_of_walk resolved folder.dir

/-- A directory stays where it is when the directories stay. -/
theorem Folder.mono (folder : Folder before parts place)
    (dirs : ∀ path, before.node path = some .dir → after.node path = some .dir)
    : Folder after parts place :=
  ⟨resolve_mono dirs folder.resolved, dirs place folder.dir⟩

-- Entries of a directory

theorem walk_concat (walked : walk fs base parts = .ok place) (dir : fs.node place = some .dir)
    (named : Names name)
    : walk fs base (parts ++ [name])
      = if 255 < Text.len name then .error nameTooLong else .ok (place ++ [name]) := by
  induction parts generalizing base with
  | nil =>
    cases walked
    rw [List.nil_append, walk, if_neg (by simp [named.1, named.2.1]), if_neg named.2.2, if_pos rfl]
  | cons part rest ih =>
    rw [walk] at walked
    rw [List.cons_append, walk]
    split
    · rename_i trivial_
      rw [if_pos trivial_] at walked
      exact ih walked
    · rename_i counts
      rw [if_neg counts] at walked
      split
      · rename_i up
        rw [if_pos up] at walked
        exact ih walked
      · rename_i down
        rw [if_neg down] at walked
        split at walked
        · cases walked
        · rename_i fits
          rw [if_neg fits, if_neg (by simp)]
          split at walked
          · rename_i last
            cases walked
            rw [dir]
            exact ih (by rw [last, walk])
          · split at walked
            · exact ih walked
            · cases walked
            · cases walked

/-- The place of an entry of a directory, which the files in it have no influence on. -/
def entry (parts : List String) (place : Path) (name : String) : Except EpochsError Path :=
  if (parts ++ [name]).any fun part => part.toList.contains '\x00' then .error nulInPath
  else if 4096 ≤ textLength (parts ++ [name]) then .error nameTooLong
  else if 255 < Text.len name then .error nameTooLong
  else .ok (place ++ [name])

theorem Folder.resolve_entry (folder : Folder fs parts place) (named : Names name)
    : resolve fs (parts ++ [name]) = entry parts place name := by
  have resolved := folder.resolved
  unfold resolve at resolved
  unfold resolve entry
  split
  · rfl
  · rename_i readable
    rw [if_neg (fun nul => readable (by simp only [List.any_append, nul, Bool.true_or]))] at resolved
    split
    · rfl
    · rename_i short
      have shorter : textLength parts ≤ textLength (parts ++ [name]) := by
        simp [textLength]
      rw [if_neg (by omega)] at resolved
      exact walk_concat resolved folder.dir named

theorem eq_of_entry (found : entry parts place name = .ok path)
    : path = place ++ [name] := by
  unfold entry at found
  split at found
  · cases found
  · split at found
    · cases found
    · split at found
      · cases found
      · cases found
        rfl

def seen (fs : FileSystem) (parts : List String) : Option (Except EpochsError String) :=
  if present fs parts then some (textAt fs parts) else none

/-- What is read at an entry depends on what stands there alone. -/
theorem Folder.read_entry (folder : Folder before parts place)
    (still : Folder after parts place) (named : Names name)
    (node : after.node (place ++ [name]) = before.node (place ++ [name]))
    (file : after.fileAt (place ++ [name]) = before.fileAt (place ++ [name]))
    : present after (parts ++ [name]) = present before (parts ++ [name])
      ∧ textAt after (parts ++ [name]) = textAt before (parts ++ [name]) := by
  unfold present textAt
  rw [folder.resolve_entry named, still.resolve_entry named]
  cases found : entry parts place name with
  | error error => exact ⟨rfl, rfl⟩
  | ok path =>
    obtain rfl := eq_of_entry found
    dsimp only
    rw [node]
    refine ⟨rfl, ?_⟩
    cases stands : before.node (place ++ [name]) with
    | none => rfl
    | some node' =>
      cases node' with
      | dir => rfl
      | file inode =>
        rw [stands] at node
        have content : after.content inode = before.content inode := by
          simpa [fileAt, inodeAt, stands, node] using file
        dsimp only
        rw [content]

theorem Folder.seen_entry (folder : Folder before parts place)
    (still : Folder after parts place) (named : Names name)
    (node : after.node (place ++ [name]) = before.node (place ++ [name]))
    (file : after.fileAt (place ++ [name]) = before.fileAt (place ++ [name]))
    : seen after (parts ++ [name]) = seen before (parts ++ [name]) := by
  obtain ⟨present, text⟩ := folder.read_entry still named node file
  rw [seen, seen, present, text]

-- Files written into a directory

def Writable (fs : FileSystem) (parts : List String) : Prop :=
  ∃ path, resolve fs parts = .ok path ∧ fs.node path ≠ some .dir

/-- A file can be written where its path leads to no directory. -/
theorem writeFile_writable (parts : List String) (bytes : Bytes) (world : World)
    : Meets
        (fun _ _ => ∃ path, resolve world.fs parts = .ok path
          ∧ world.fs.node path ≠ some .dir)
        (fun reason _ => ∀ error, reason = .err error
          → ∀ path, resolve world.fs parts = .ok path → world.fs.node path = some .dir)
        (writeFile parts bytes world) := by
  have dies {next : World} {reason : Fault EpochsError} {error : EpochsError} {goal : Prop}
      (killed : Killed next reason) (same : reason = .err error) : goal := by
    cases killed.1.symm.trans same
  rw [writeFile, get_bind_apply]
  cases resolved : resolve world.fs parts with
  | error error =>
    intro _ _ path ok
    cases ok
  | ok path =>
    dsimp only
    cases found : world.fs.node path with
    | none =>
      refine (writeNew_meets bytes found).imp ?_ ?_
      · exact fun _ _ _ => ⟨path, rfl, by simp [found]⟩
      · exact fun _ _ stopped _ same => dies stopped.1 same
    | some node =>
      cases node with
      | dir =>
        intro _ _ other ok
        cases ok
        exact found
      | file inode =>
        refine (overwrite_meets bytes (inodeAt_eq_some.mpr found)).imp ?_ ?_
        · exact fun _ _ _ => ⟨path, rfl, by simp [found]⟩
        · exact fun _ _ stopped _ same => dies stopped.1 same

theorem Writable.returns (writable : Writable world.fs parts)
    (alive : world.deadline = none) (bytes : Bytes)
    : ∃ next, writeFile parts bytes world = .ok () next := by
  obtain ⟨path, resolved, notDir⟩ := writable
  have writes := writeFile_writable parts bytes world
  have effects := writeFile_meets parts bytes world
  cases ran : writeFile parts bytes world with
  | ok value next => exact ⟨next, rfl⟩
  | error reason next =>
    rw [ran] at writes effects
    rcases effects with ⟨⟨error, rfl⟩, -⟩ | ⟨killed, -⟩
    · exact absurd (writes error rfl path resolved) notDir
    · exact absurd alive killed.2

def SameDirs (before after : FileSystem) : Prop :=
  ∀ path, before.node path = some .dir ↔ after.node path = some .dir

theorem Writable.congr (writable : Writable before parts) (dirs : SameDirs before after)
    : Writable after parts := by
  obtain ⟨path, resolved, notDir⟩ := writable
  exact ⟨path, (resolve_congr dirs parts path).mp resolved, fun dir => notDir ((dirs path).mpr dir)⟩

/-- Writing a file makes and removes no directory. -/
theorem writeFile_dirs {bytes : Bytes}
    (wrote : writeFile parts bytes world = .ok () next)
    : SameDirs world.fs next.fs := by
  have changes {update : FileSystem → FileSystem} {inode : Nat} {from_ : World}
      (dirs : SameDirs from_.fs (update from_.fs))
      (wrote : (do change update; append inode bytes) from_ = .ok () next)
      : SameDirs from_.fs next.fs := by
    obtain ⟨_, middle, changed, wrote⟩ := bind_eq_ok.mp wrote
    have first := change_meets update from_
    have second := append_meets inode bytes middle
    rw [changed] at first
    rw [wrote] at second
    intro path
    rw [second.1.node, first.1]
    exact dirs path
  rw [writeFile, get_bind_apply] at wrote
  cases resolved : resolve world.fs parts with
  | error error =>
    rw [resolved] at wrote
    cases wrote
  | ok path =>
    rw [resolved] at wrote
    dsimp only at wrote
    cases found : world.fs.node path with
    | none =>
      rw [found] at wrote
      refine changes (fun other => ?_) wrote
      have named : path ≠ [] := by
        rintro rfl
        simp [node] at found
      rw [node_create named]
      by_cases same : other = path
      · simp [same, found]
      · rw [if_neg same]
    | some node =>
      rw [found] at wrote
      cases node with
      | dir => cases wrote
      | file inode => exact changes (fun other => by rw [node_setContent]) wrote

/-- One file was written, and nothing else changed. -/
structure Wrote (target : Path) (bytes : Bytes) (before after : World) : Prop where
  alive : before.deadline = none → after.deadline = none
  formed : before.fs.WellFormed → after.fs.WellFormed
  dirs : SameDirs before.fs after.fs
  here : after.fs.fileAt target = some bytes
  nodes : ∀ path, path ≠ target → after.fs.node path = before.fs.node path
  files : before.fs.WellFormed → ∀ path, path ≠ target
    → after.fs.fileAt path = before.fs.fileAt path

theorem Folder.wrote {bytes : Bytes} (folder : Folder world.fs parts place)
    (named : Names name) (wrote : writeFile (parts ++ [name]) bytes world = .ok () next)
    : entry parts place name = .ok (place ++ [name]) ∧ Wrote (place ++ [name]) bytes world next := by
  have dirs := writeFile_dirs wrote
  obtain ⟨path, resolved, alters, lives, here⟩ :=
    (writeFile_meets (parts ++ [name]) bytes world).of_ok wrote
  rw [folder.resolve_entry named] at resolved
  obtain rfl := eq_of_entry resolved
  refine ⟨resolved, lives, alters.formed, dirs, here, fun path other => ?_,
    fun formed path other => alters.fileAt formed other⟩
  rcases alters.nodes path other with same | ⟨absent, made, -⟩
  · exact same
  · rw [(dirs path).mpr made] at absent
    cases absent

/-- The file that was written is read back. -/
theorem Folder.seen_wrote {text : String}
    (folder : Folder next.fs parts place) (named : Names name)
    (placed : entry parts place name = .ok (place ++ [name]))
    (wrote : Wrote (place ++ [name]) (Utf8.encode text) world next)
    : seen next.fs (parts ++ [name]) = some (.ok text) := by
  have resolved := (folder.resolve_entry named).trans placed
  have present : present next.fs (parts ++ [name]) = true := by
    obtain ⟨inode, found, -⟩ := Option.map_eq_some_iff.mp wrote.here
    rw [World.present, resolved]
    simp [inodeAt_eq_some.mp found]
  rw [seen, if_pos present, textAt_of_file resolved wrote.here (Utf8.decode_encode text)]

-- The names in a directory

def namesIn (fs : FileSystem) (keep : String → Bool) (place : Path) : List String :=
  (((fs.children place).map Prod.fst).filter keep).insertionSort (· ≤ ·)

theorem mem_namesIn (formed : fs.WellFormed) {keep : String → Bool}
    : name ∈ namesIn fs keep place
      ↔ keep name = true ∧ ∃ node, fs.node (place ++ [name]) = some node := by
  rw [namesIn, List.mem_insertionSort, List.mem_filter, List.mem_map]
  constructor
  · rintro ⟨⟨⟨found, node⟩, member, rfl⟩, kept⟩
    exact ⟨kept, node, (formed.mem_children _ _ _).mp member⟩
  · rintro ⟨kept, node, stands⟩
    exact ⟨⟨(name, node), (formed.mem_children _ _ _).mpr stands, rfl⟩, kept⟩

theorem nodup_namesIn (formed : fs.WellFormed) (keep : String → Bool) (place : Path)
    : (namesIn fs keep place).Nodup := by
  refine (List.perm_insertionSort _ _).nodup_iff.mpr (List.Nodup.filter _ ?_)
  exact List.pairwise_map.mpr (formed.pairwise_children place)

/-- The names are the same when the same paths are taken. -/
theorem namesIn_congr (formed : before.WellFormed) (still : after.WellFormed)
    (keep : String → Bool)
    (nodes : ∀ name, (after.node (place ++ [name])).isSome = (before.node (place ++ [name])).isSome)
    : namesIn after keep place = namesIn before keep place := by
  have perm : (namesIn after keep place).Perm (namesIn before keep place) := by
    rw [List.perm_ext_iff_of_nodup (nodup_namesIn still keep place)
      (nodup_namesIn formed keep place)]
    intro name
    rw [mem_namesIn still, mem_namesIn formed]
    simp only [← Option.isSome_iff_exists, nodes]
  exact perm.eq_of_pairwise (fun _ _ _ _ => le_antisymm) (List.pairwise_insertionSort _ _)
    (List.pairwise_insertionSort _ _)

end Epochs.World
