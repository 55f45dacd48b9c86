import Epochs.Core.Hash
import Epochs.Lib.FileSystem
import Epochs.Lib.RunRules

/-! The world a process runs in: its files, its clock, its static variables, and possibly the
moment it is killed. A process is killed after a number of elementary effects, each byte
written counting as one; what was written before stays.
-/

namespace Epochs

open Lib Run FileSystem

/-- The surroundings of the process. The clock lists its readings in milliseconds. -/
structure World where
  fs : FileSystem
  clock : Nat → Nat
  readings : Nat
  timestamps : Nat
  deadline : Option Nat

namespace World

def bare : World :=
  { fs := FileSystem.empty, clock := fun _ => 0, readings := 0, timestamps := 0, deadline := none }

/-- The world in which the next process starts: the files stay, its own variables do not. -/
def restarted (world : World) : World := { world with timestamps := 0, deadline := none }

/-- The I/O errors of the operating system and of the standard library, as displayed. -/
def noSuchFile : EpochsError := .io "No such file or directory (os error 2)"
def fileExists : EpochsError := .io "File exists (os error 17)"
def notADirectory : EpochsError := .io "Not a directory (os error 20)"
def isADirectory : EpochsError := .io "Is a directory (os error 21)"
def unexpectedEof : EpochsError := .io "failed to fill whole buffer"
def invalidUtf8 : EpochsError := .io "stream did not contain valid UTF-8"

def change (update : FileSystem → FileSystem) : Run EpochsError World Unit := fun world =>
  match world.deadline with
  | none => .ok () { world with fs := update world.fs }
  | some 0 => .error .killed world
  | some (left + 1) => .ok () { world with fs := update world.fs, deadline := some left }

def append (inode : Nat) (bytes : Bytes) : Run EpochsError World Unit := fun world =>
  match world.deadline with
  | none => .ok () { world with fs := world.fs.append inode bytes }
  | some left =>
    if bytes.length ≤ left then
      .ok () { world with
        fs := world.fs.append inode bytes, deadline := some (left - bytes.length) }
    else
      .error .killed { world with
        fs := world.fs.append inode (bytes.take left), deadline := some 0 }

def createDirsBelow (base : Path) : Path → Run EpochsError World Unit
  | [] => pure ()
  | name :: rest => do
    let here := base ++ [name]
    match (← get).fs.node here with
    | some .dir => createDirsBelow here rest
    | some (.file _) => Run.fail (if rest.isEmpty then fileExists else notADirectory)
    | none =>
      change fun fs => fs.mkdir here
      createDirsBelow here rest

def createDirAll (path : Path) : Run EpochsError World Unit := createDirsBelow [] path

def openAppend (path : Path) : Run EpochsError World Nat := do
  let fs := (← get).fs
  match fs.node path with
  | some (.file inode) => pure inode
  | some .dir => Run.fail isADirectory
  | none =>
    match fs.node path.dropLast with
    | some .dir =>
      change fun fs => fs.create path
      pure fs.nextInode
    | some (.file _) => Run.fail notADirectory
    | none => Run.fail noSuchFile

/-- Open an existing file for reading. Reading a directory fails at the first read. -/
def openRead (path : Path) : Run EpochsError World Nat := do
  match (← get).fs.node path with
  | some (.file inode) => pure inode
  | some .dir => Run.fail isADirectory
  | none => Run.fail noSuchFile

def slice (bytes : Bytes) (offset length : Nat) : Bytes := (bytes.drop offset).take length

def readExact (inode offset length : Nat) : Run EpochsError World Bytes := do
  let bytes := (← get).fs.content inode
  if offset + length ≤ bytes.length then
    pure (slice bytes offset length)
  else
    Run.fail unexpectedEof

def nowMillis : Run EpochsError World Nat := do
  let world ← get
  set { world with readings := world.readings + 1 }
  pure (world.clock world.readings % 2 ^ 64)

def nowSecs : Run EpochsError World Nat := do
  let world ← get
  set { world with readings := world.readings + 1 }
  pure (world.clock world.readings / 1000 % 2 ^ 64)

-- What each operation does

def Lives (before after : World) : Prop := before.deadline = none → after.deadline = none

def Killed (before : World) (reason : Fault EpochsError) : Prop :=
  reason = .killed ∧ before.deadline ≠ none

theorem change_meets (update : FileSystem → FileSystem) (world : World)
    : Meets (fun _ next => next.fs = update world.fs ∧ Lives world next)
        (fun reason next => Killed world reason ∧ next.fs = world.fs)
        (change update world) := by
  unfold change
  split
  · exact ⟨rfl, id⟩
  · rename_i dying
    exact ⟨⟨rfl, by simp [dying]⟩, rfl⟩
  · rename_i left mortal
    exact ⟨rfl, fun alive => by simp [alive] at mortal⟩

theorem append_meets (inode : Nat) (bytes : Bytes) (world : World)
    : Meets
        (fun _ next => world.fs.Appended next.fs inode bytes ∧ Lives world next)
        (fun reason next => Killed world reason
          ∧ ∃ written, world.fs.Appended next.fs inode written
            ∧ written <+: bytes ∧ written.length < bytes.length)
        (append inode bytes world) := by
  unfold append
  split
  · exact ⟨Appended.append _ _ _, id⟩
  · rename_i left mortal
    split
    · exact ⟨Appended.append _ _ _, fun alive => by simp [alive] at mortal⟩
    · rename_i short
      refine ⟨⟨rfl, by simp [mortal]⟩, bytes.take left, Appended.append _ _ _,
        List.take_prefix _ _, ?_⟩
      rw [List.length_take]
      omega

/-- A directory made at a free path. -/
theorem grows_mkdir {path here : Path} {fs : FileSystem} (above : here <+: path)
    (free : fs.node here = none)
    : Grows (fun other => other <+: path) fs (fs.mkdir here) := by
  have named : here ≠ [] := by
    rintro rfl
    simp [node] at free
  exact
    { kept := fun other node found => by
        rw [node_mkdir named, if_neg, found]
        rintro rfl
        simp [free] at found
      contents := fun _ _ _ => rfl
      added := fun other node found => by
        rw [node_mkdir named] at found
        split at found
        · rename_i same
          exact .inr (same ▸ above)
        · exact .inl found
      formed := fun formed => formed.mkdir named free }

theorem createDirsBelow_meets {base : Path} (rest : Path) {world : World}
    (dirs : ∀ front, front <+: base → world.fs.node front = some .dir)
    : Meets
        (fun _ next => Grows (fun other => other <+: base ++ rest) world.fs next.fs ∧ Lives world next
          ∧ ∀ front, front <+: base ++ rest → next.fs.node front = some .dir)
        (fun _ _ => True)
        (createDirsBelow base rest world) := by
  induction rest generalizing base world with
  | nil =>
    refine ⟨Grows.refl _ _, id, ?_⟩
    rwa [List.append_nil]
  | cons name rest ih =>
    have above : base ++ [name] <+: base ++ name :: rest := ⟨rest, by simp⟩
    have whole : base ++ [name] ++ rest = base ++ name :: rest := by simp
    rw [createDirsBelow, get_bind_apply]
    cases here : world.fs.node (base ++ [name]) with
    | some node =>
      cases node with
      | dir =>
        have deeper := @ih (base ++ [name]) world (by
          intro front below
          rcases List.prefix_concat_iff.mp below with rfl | shorter
          · exact here
          · exact dirs front shorter)
        rwa [whole] at deeper
      | file inode => trivial
    | none =>
      refine Meets.bind ((change_meets _ world).imp (fun _ _ changed => changed)
        fun _ _ _ => trivial) ?_
      intro _ middle _ changed
      obtain ⟨made, lives⟩ := changed
      have first : Grows (fun other => other <+: base ++ name :: rest)
          world.fs middle.fs :=
        made ▸ grows_mkdir above here
      have deeper := @ih (base ++ [name]) middle (by
        intro front below
        rcases List.prefix_concat_iff.mp below with rfl | shorter
        · rw [made, node_mkdir (by simp), if_pos rfl]
        · exact first.kept front _ (dirs front shorter))
      rw [whole] at deeper
      refine deeper.imp ?_ fun _ _ done => done
      intro _ next made
      exact ⟨first.trans made.1, fun alive => made.2.1 (lives alive), made.2.2⟩

theorem createDirAll_meets (path : Path) (world : World)
    : Meets
        (fun _ next => Grows (fun other => other <+: path) world.fs next.fs ∧ Lives world next
          ∧ ∀ front, front <+: path → next.fs.node front = some .dir)
        (fun _ _ => True)
        (createDirAll path world) := by
  refine createDirsBelow_meets path ?_
  intro front empty
  rw [List.prefix_nil.mp empty]
  simp [node]

/-- Nothing happens when the directories exist. -/
theorem createDirsBelow_of_dirs {base : Path} (rest : Path) {world : World}
    (dirs : ∀ front, front <+: base ++ rest → world.fs.node front = some .dir)
    : createDirsBelow base rest world = .ok () world := by
  induction rest generalizing base with
  | nil => rfl
  | cons name rest ih =>
    have here : world.fs.node (base ++ [name]) = some .dir :=
      dirs _ ⟨rest, by simp⟩
    rw [createDirsBelow, get_bind_apply]
    simp only [here]
    exact ih (by simpa using dirs)

theorem createDirAll_of_dirs {path : Path} {world : World}
    (dirs : ∀ front, front <+: path → world.fs.node front = some .dir)
    : createDirAll path world = .ok () world :=
  createDirsBelow_of_dirs path dirs

theorem openRead_of_file {path : Path} {world : World} {inode : Nat}
    (found : world.fs.inodeAt path = some inode)
    : openRead path world = .ok inode world := by
  simp [openRead, bind_apply, inodeAt_eq_some.mp found]

theorem openRead_of_none {path : Path} {world : World} (absent : world.fs.inodeAt path = none)
    : ∃ error, openRead path world = .error (.err error) world := by
  cases found : world.fs.node path with
  | none => exact ⟨noSuchFile, by simp [openRead, bind_apply, found]⟩
  | some node =>
    cases node with
    | dir => exact ⟨isADirectory, by simp [openRead, bind_apply, found]⟩
    | file inode => simp [inodeAt, found] at absent

theorem readExact_apply (inode offset length : Nat) (world : World)
    : readExact inode offset length world
      = if offset + length ≤ (world.fs.content inode).length then
          .ok (slice (world.fs.content inode) offset length) world
        else
          .error (.err unexpectedEof) world := by
  simp only [readExact, get_bind_apply]
  split <;> rfl

theorem openAppend_of_file {path : Path} {world : World} {inode : Nat}
    (found : world.fs.inodeAt path = some inode)
    : openAppend path world = .ok inode world := by
  simp [openAppend, bind_apply, inodeAt_eq_some.mp found]

/-- A missing file is created in a directory that exists. -/
theorem openAppend_of_missing {path : Path} {world : World} (absent : world.fs.node path = none)
    (parent : world.fs.node path.dropLast = some .dir)
    : Meets
        (fun inode next => inode = world.fs.nextInode ∧ next.fs = world.fs.create path
          ∧ Lives world next)
        (fun reason next => Killed world reason ∧ next.fs = world.fs)
        (openAppend path world) := by
  have opens : openAppend path world
      = (do change fun fs => fs.create path; pure world.fs.nextInode) world := by
    rw [openAppend, get_bind_apply]
    simp only [absent, parent]
  rw [opens]
  exact (change_meets _ world).bind fun _ next _ changed => ⟨rfl, changed⟩

/-- Opening a file to append to it, in a directory that exists. -/
theorem openAppend_meets {path : Path} {world : World} (formed : world.fs.WellFormed)
    (parent : world.fs.node path.dropLast = some .dir)
    : Meets
        (fun inode next => Grows (fun other => other = path) world.fs next.fs
          ∧ Lives world next
          ∧ next.fs.inodeAt path = some inode
          ∧ (world.fs.node path = none → next.fs.content inode = []))
        (fun _ _ => True)
        (openAppend path world) := by
  cases found : world.fs.node path with
  | none =>
    have named : path ≠ [] := by
      rintro rfl
      simp [node] at found
    refine (openAppend_of_missing found parent).imp ?_ fun _ _ _ => trivial
    rintro inode next ⟨rfl, made, lives⟩
    have created : world.fs.Created next.fs path [] := by
      rw [made]
      exact .of_appended named (Appended.refl _ _)
    exact ⟨created.grows formed found, lives, by rw [created.inodeAt, if_pos rfl],
      fun _ => created.content_self⟩
  | some node =>
    cases node with
    | dir => simp [openAppend, bind_apply, found]
    | file inode =>
      have here := inodeAt_eq_some.mpr found
      rw [openAppend_of_file here]
      exact ⟨Grows.refl _ _, id, here, fun absent => by simp at absent⟩

theorem nowSecs_apply (world : World)
    : ∃ seconds, nowSecs world
        = .ok seconds { world with readings := world.readings + 1 } :=
  ⟨_, rfl⟩

end World
end Epochs
