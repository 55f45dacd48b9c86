import Epochs.Store.Start

/-! Listing branches. The list names the files directly in the directory of refs, each once; in a
settled store every one of them is a ref that can be read under its name.
-/

namespace Epochs

open Lib

namespace Repo

variable {repo : Repo} {fs : FileSystem} {name : String}

-- Names of one part

structure Single (name : String) : Prop where
  whole : '/' ∉ name.toList
  named : name ≠ "" ∧ name ≠ "." ∧ name ≠ ".."

instance (name : String) : Decidable (Single name) :=
  decidable_of_iff ('/' ∉ name.toList ∧ name ≠ "" ∧ name ≠ "." ∧ name ≠ "..")
    ⟨fun ⟨whole, named⟩ => ⟨whole, named⟩, fun single => ⟨single.whole, single.named⟩⟩

theorem split_of_whole (whole : '/' ∉ name.toList) : Text.split '/' name = [name] := by
  rw [Text.split, Text.splitChars_of_none]
  · simp
  · intro char member
    simp only [decide_eq_false_iff_not]
    rintro rfl
    exact whole member

theorem Single.split (single : Single name) : Text.split '/' name = [name] :=
  split_of_whole single.whole

theorem Single.below (single : Single name) : Below name := by
  refine ⟨fun slash => ?_, ?_⟩
  · exact single.whole (List.mem_of_mem_head? slash)
  · rw [single.split]
    simpa using Ne.symm single.named.2.2

theorem Single.refParts (single : Single name) : refParts name = [name] := by
  rw [Repo.refParts, single.split]
  simp [single.named.1, single.named.2.1]

theorem Single.branchRefPath (single : Single name)
    : repo.branchRefPath name = heads repo.path ++ [name] := by
  rw [branchRefPath_of_below single.below, single.split]

-- The list

theorem nodup_fileNames (formed : fs.WellFormed) (directory : Path)
    : (fileNames fs directory).Nodup := by
  refine (List.perm_insertionSort _ _).nodup_iff.mpr ?_
  refine List.Pairwise.filterMap _ ?_ (formed.pairwise_children directory)
  rintro ⟨first, firstNode⟩ ⟨second, secondNode⟩ different name atFirst other atSecond same
  cases firstNode with
  | dir => cases atFirst
  | file inode =>
    cases secondNode with
    | dir => cases atSecond
    | file inode' =>
      cases atFirst
      cases atSecond
      exact different same

theorem mem_fileNames (formed : fs.WellFormed) (directory : Path)
    : name ∈ fileNames fs directory ↔ ∃ inode, fs.inodeAt (directory ++ [name]) = some inode := by
  rw [fileNames, List.mem_insertionSort, List.mem_filterMap]
  constructor
  · rintro ⟨⟨found, node⟩, member, selected⟩
    cases node with
    | dir => cases selected
    | file inode =>
      cases selected
      exact ⟨inode, FileSystem.inodeAt_eq_some.mpr ((formed.mem_children _ _ _).mp member)⟩
  · rintro ⟨inode, found⟩
    exact ⟨(name, .file inode),
      (formed.mem_children _ _ _).mpr (FileSystem.inodeAt_eq_some.mp found), rfl⟩

/-- The list of branches of a repository that stands. -/
theorem branchesAt_spec (formed : fs.WellFormed) (stands : repo.Stands fs)
    : ∃ names, repo.branchesAt fs = .ok names ∧ names.Nodup
        ∧ ∀ name, name ∈ names ↔ ∃ bytes, fs.fileAt (heads repo.path ++ [name]) = some bytes := by
  refine ⟨fileNames fs (heads repo.path), ?_, nodup_fileNames formed _, fun name => ?_⟩
  · rw [branchesAt, stands.dirs _ List.prefix_rfl]
  · rw [mem_fileNames formed]
    simp [FileSystem.fileAt]

/-- A file directly in the directory of refs is read under its name. -/
theorem branchAt_of_tip (stands : repo.Stands fs) (tidy : repo.Tidy fs) {target : Hash}
    (held : repo.tip fs [name] = some target)
    : Single name ∧ repo.branchAt fs name = .ok { name, target } := by
  obtain ⟨bytes, file, -⟩ := Option.bind_eq_some_iff.mp held
  obtain ⟨direct, whole, -⟩ := tidy [name] bytes file
  have single : Single name :=
    ⟨whole name (List.mem_singleton_self _), direct.named name (by simp)⟩
  refine ⟨single, branchAt_eq_ok.mpr ⟨rfl, heads repo.path ++ [name], ?_, held⟩⟩
  rw [single.branchRefPath]
  refine World.resolve_of_dirs direct fun front above less => ?_
  rcases List.prefix_concat_iff.mp above with same | shorter
  · exact absurd same less
  · exact stands.dirs front shorter

end Repo
end Epochs
