import Epochs.Disk.Effects

/-! The store writes its own files only: the index file and what is in the data directory. This
holds in every state in which its open files are such files or have no name any more, whatever
was written to them. And it takes nothing away: index entries stay, and files only grow.
-/

namespace Epochs

open Lib

namespace CasDisk

def Held (repoPath : Path) (fs : FileSystem) (inode : Nat) : Prop :=
  inode < fs.nextInode ∧ ∀ path, fs.inodeAt path = some inode → Owned repoPath path

/-- The open files of the store are its own. -/
structure Anchored (disk : CasDisk) : Prop where
  formed : disk.fs.WellFormed
  index : Held disk.cas.repoPath disk.fs disk.cas.index.file
  current : Held disk.cas.repoPath disk.fs disk.cas.currentFile.file

/-- Everything but the paths of the store stands as before. -/
def Elsewhere (repoPath : Path) (before after : FileSystem) : Prop :=
  ∀ path, ¬ Owned repoPath path
    → after.node path = before.node path ∧ after.fileAt path = before.fileAt path

/-- A step that writes files of the store only. -/
structure Spares (before after : CasDisk) : Prop where
  repoPath : after.cas.repoPath = before.cas.repoPath
  anchored : before.Anchored → after.Anchored
  elsewhere : before.Anchored → Elsewhere before.cas.repoPath before.fs after.fs

variable {disk before middle after : CasDisk}

theorem spares_frame : Frame Spares where
  refl _ := ⟨rfl, id, fun _ _ _ => ⟨rfl, rfl⟩⟩
  trans first second :=
    { repoPath := second.repoPath.trans first.repoPath
      anchored := fun anchored => second.anchored (first.anchored anchored)
      elsewhere := fun anchored path other => by
        have here := first.elsewhere anchored path other
        have there := second.elsewhere (first.anchored anchored) path (first.repoPath ▸ other)
        exact ⟨there.1.trans here.1, there.2.trans here.2⟩ }

variable {repoPath : Path} {fs next : FileSystem} {inode : Nat}

/-- An open file stays the store's own when no file of before gets another name. -/
theorem Held.of_numbers
    (held : Held repoPath fs inode) (numbers : fs.Numbers next)
    : Held repoPath next inode :=
  ⟨Nat.lt_of_lt_of_le held.1 numbers.next,
    fun path found => held.2 path (numbers.named path inode held.1 found)⟩

variable {path : Path}

theorem held_of_inodeAt
    (formed : fs.WellFormed) (owned : Owned repoPath path)
    (found : fs.inodeAt path = some inode)
    : Held repoPath fs inode :=
  ⟨formed.numbered path inode found, fun other here =>
    formed.unshared path other inode found here ▸ owned⟩

/-- The open files stay the store's own through whatever else happens to the files. -/
theorem Anchored.of_numbers (anchored : before.Anchored) (numbers : before.fs.Numbers after.fs)
    (repoPath : after.cas.repoPath = before.cas.repoPath)
    (index : after.cas.index.file = before.cas.index.file)
    (current : after.cas.currentFile.file = before.cas.currentFile.file)
    : after.Anchored where
  formed := numbers.formed anchored.formed
  index := by
    rw [repoPath, index]
    exact anchored.index.of_numbers numbers
  current := by
    rw [repoPath, current]
    exact anchored.current.of_numbers numbers

variable {bytes : Bytes}

theorem Held.elsewhere
    (held : Held repoPath fs inode) (appended : fs.Appended next inode bytes)
    : Elsewhere repoPath fs next := by
  intro path other
  refine ⟨appended.node path, ?_⟩
  unfold FileSystem.fileAt
  rw [appended.inodeAt]
  cases found : fs.inodeAt path with
  | none => rfl
  | some here =>
    refine congrArg some (appended.content_of_ne ?_)
    rintro rfl
    exact other (held.2 path found)

/-- A segment file that appears leaves every other path. -/
theorem elsewhere_of_created
    (formed : fs.WellFormed) (owned : Owned repoPath path) (created : fs.Created next path bytes)
    : Elsewhere repoPath fs next := by
  intro other notOwned
  have different : other ≠ path := fun same => notOwned (same ▸ owned)
  refine ⟨by rw [created.node, if_neg different], ?_⟩
  unfold FileSystem.fileAt
  rw [created.inodeAt, if_neg different]
  cases found : fs.inodeAt other with
  | none => rfl
  | some inode => exact congrArg some (created.content_of_named formed found)

theorem Effect.spares (effect : Effect before after) : Spares before after := by
  cases effect with
  | quiet repoPath index current fs =>
    refine ⟨repoPath, fun anchored => ?_, fun _ path _ => by rw [fs]; exact ⟨rfl, rfl⟩⟩
    exact anchored.of_numbers (fs ▸ FileSystem.Numbers.frame.refl _) repoPath
      (congrArg Index.file index) current
  | wrote repoPath index current appended =>
    exact ⟨repoPath, fun anchored => anchored.of_numbers (.of_appended appended) repoPath
        (congrArg Index.file index) current,
      fun anchored => anchored.current.elsewhere appended⟩
  | entered repoPath file found current appended =>
    exact ⟨repoPath,
      fun anchored => anchored.of_numbers (.of_appended appended) repoPath file current,
      fun anchored => anchored.index.elsewhere appended⟩
  | opened owned repoPath index fs found =>
    refine ⟨repoPath, fun anchored => ⟨fs ▸ anchored.formed, ?_, ?_⟩,
      fun _ path _ => by rw [fs]; exact ⟨rfl, rfl⟩⟩
    · rw [repoPath, fs, index]
      exact anchored.index
    · rw [repoPath, fs]
      exact held_of_inodeAt anchored.formed owned found
  | created owned repoPath index numbers free created current =>
    refine ⟨repoPath, fun anchored => ?_, fun anchored =>
      elsewhere_of_created anchored.formed owned created⟩
    rcases current with same | new
    · exact anchored.of_numbers numbers repoPath (congrArg Index.file index) same
    · have formed := numbers.formed anchored.formed
      refine ⟨formed, ?_, ?_⟩
      · rw [repoPath, index]
        exact anchored.index.of_numbers numbers
      · rw [repoPath]
        exact held_of_inodeAt formed owned (by rw [created.inodeAt, if_pos rfl, new])

theorem Effects.spares (effects : Effects before after) : Spares before after :=
  effects.lift spares_frame Effect.spares

-- Nothing is taken away

/-- A step after which every index entry is still there, and every file still begins with the
bytes it had.
-/
structure Gains (before after : CasDisk) : Prop where
  formed : before.fs.WellFormed → after.fs.WellFormed
  found : ∀ hash entry, before.cas.index.find hash = some entry
    → after.cas.index.find hash = some entry
  files : before.fs.WellFormed → ∀ path inode, before.fs.inodeAt path = some inode
    → after.fs.inodeAt path = some inode ∧ before.fs.content inode <+: after.fs.content inode

theorem gains_frame : Frame Gains where
  refl _ := ⟨id, fun _ _ found => found, fun _ _ _ found => ⟨found, List.prefix_rfl⟩⟩
  trans first second :=
    { formed := fun formed => second.formed (first.formed formed)
      found := fun hash entry found => second.found hash entry (first.found hash entry found)
      files := fun formed path inode found => by
        obtain ⟨still, longer⟩ := first.files formed path inode found
        obtain ⟨stays, more⟩ := second.files (first.formed formed) path inode still
        exact ⟨stays, longer.trans more⟩ }

theorem files_of_appended
    (appended : fs.Appended next inode bytes) {other : Nat}
    (found : fs.inodeAt path = some other)
    : next.inodeAt path = some other ∧ fs.content other <+: next.content other := by
  refine ⟨(appended.inodeAt path).trans found, ?_⟩
  by_cases same : other = inode
  · rw [same, appended.content_self]
    exact List.prefix_append _ _
  · exact appended.content_of_ne same ▸ List.prefix_rfl

theorem Effect.gains (effect : Effect before after) : Gains before after := by
  cases effect with
  | quiet repoPath index current fs =>
    exact ⟨fun formed => fs ▸ formed, fun _ _ found => index ▸ found,
      fun _ path inode found => by rw [fs]; exact ⟨found, List.prefix_rfl⟩⟩
  | wrote repoPath index current appended =>
    exact ⟨appended.wellFormed, fun _ _ found => index ▸ found,
      fun _ path inode found => files_of_appended appended found⟩
  | entered repoPath file found current appended =>
    exact ⟨appended.wellFormed, found, fun _ path inode found => files_of_appended appended found⟩
  | opened owned repoPath index fs found =>
    exact ⟨fun formed => fs ▸ formed, fun _ _ found => index ▸ found,
      fun _ path inode found => by rw [fs]; exact ⟨found, List.prefix_rfl⟩⟩
  | created owned repoPath index numbers free created current =>
    refine ⟨numbers.formed, fun _ _ found => index ▸ found, fun formed path inode found => ?_⟩
    exact ⟨(created.grows formed free).inodeAt found,
      created.content_of_named formed found ▸ List.prefix_rfl⟩

theorem Effects.gains (effects : Effects before after) : Gains before after :=
  effects.lift gains_frame Effect.gains

end CasDisk
end Epochs
