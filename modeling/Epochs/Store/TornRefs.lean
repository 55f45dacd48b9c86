import Epochs.Store.Tips

/-! A process that stops while it moves a branch. The ref file is emptied and then written byte
by byte; a file with fewer than 64 digits is not read as a hash.
-/

namespace Epochs

open Lib

-- Directories that are there

namespace World

/-- Along a path that can be walked, no directory above its end is missing. -/
theorem makeDirs_dropLast_of_walk {world : World} {base path : Path} {parts : List String}
    (walked : walk world.fs base parts = .ok path)
    : makeDirs base (parts.filter fun part => part ≠ "" ∧ part ≠ ".").dropLast world
      = .ok () world := by
  induction parts generalizing base with
  | nil => rfl
  | cons part rest ih =>
    rw [walk] at walked
    by_cases trivial_ : part = "" ∨ part = "."
    · rw [if_pos trivial_] at walked
      rw [List.filter_cons_of_neg (by simpa [or_iff_not_imp_left] using trivial_)]
      exact ih walked
    · rw [if_neg trivial_] at walked
      rw [List.filter_cons_of_pos (by simpa [not_or] using trivial_)]
      cases named : rest.filter fun part => part ≠ "" ∧ part ≠ "." with
      | nil => rfl
      | cons next others =>
        have more : rest ≠ [] := by
          rintro rfl
          cases named
        rw [List.dropLast_cons_cons, ← named, makeDirs, if_neg trivial_]
        by_cases up : part = ".."
        · rw [if_pos up] at walked ⊢
          exact ih walked
        · rw [if_neg up] at walked ⊢
          split at walked
          · cases walked
          · rename_i short
            rw [if_neg short, Run.get_bind_apply]
            split at walked
            · rename_i dir
              simp only [dir]
              exact ih walked
            · cases walked
            · cases walked

/-- Making the directories above something that is there does nothing. -/
theorem createParents_of_resolve {world : World} {parts : List String} {path : Path}
    (resolved : resolve world.fs parts = .ok path)
    : Repo.createParents parts world = .ok () world := by
  have above : ((parts.filter fun part => part ≠ "" ∧ part ≠ ".").dropLast).Sublist parts :=
    (List.dropLast_sublist _).trans List.filter_sublist
  unfold resolve at resolved
  split at resolved
  · cases resolved
  · rename_i plain
    split at resolved
    · cases resolved
    · rename_i short
      simp only [Repo.createParents, parent]
      by_cases none : (parts.filter fun part => part ≠ "" ∧ part ≠ ".") = []
      · rw [if_pos none]
        rfl
      · rw [if_neg none]
        simp only
        rw [createDirs, if_neg, if_neg]
        · exact makeDirs_dropLast_of_walk resolved
        · exact fun long => short (Nat.le_trans long (textLength_of_sublist above))
        · rw [List.any_eq_true] at plain ⊢
          intro holds
          obtain ⟨part, member, nul⟩ := holds
          exact plain ⟨part, above.subset member, nul⟩

end World

-- What a part of a ref says

namespace Repo

theorem length_encode_toHex (target : Hash) : (Utf8.encode target.toHex).length = 64 := by
  rw [Hash.toHex, Utf8.encode_ofList, Hash.length_hexBytes, target.size]

theorem refText_eq (target : Hash) : refText target = Utf8.encode target.toHex ++ [10] := by
  have line : (s!"{target.toHex}\n" : String)
      = String.ofList (target.bytes.flatMap Hash.hexByte ++ ['\n']) := by
    rw [Text.toString_text, String.ofList_append]
    rfl
  rw [refText, line, Hash.toHex, Utf8.encode_ofList, Utf8.encode_ofList, List.flatMap_append]
  rfl

/-- The digits of a hash without the line feed are read as the hash. -/
theorem tipOf_digits (target : Hash) : tipOf (Utf8.encode target.toHex) = some target := by
  rw [tipOf, Utf8.decode_encode]
  dsimp only
  rw [trim_toHex, Hash.fromHex_toHex]
  rfl

/-- Trimming makes no text longer. -/
theorem length_encode_trim_le (text : String)
    : (Utf8.encode (Text.trim text)).length ≤ (Utf8.encode text).length := by
  obtain ⟨front, first⟩ := @List.dropWhile_suffix _ text.toList Text.isWhitespace
  obtain ⟨back, second⟩ :=
    @List.dropWhile_suffix _ (text.toList.dropWhile Text.isWhitespace).reverse Text.isWhitespace
  have kept : text.toList = front ++ (Text.trimChars text.toList ++ back.reverse) := by
    rw [Text.trimChars, ← List.reverse_append, second, List.reverse_reverse, first]
  have bytes := congrArg (fun chars => (chars.flatMap String.utf8EncodeChar).length) kept
  simp only [← Utf8.encode_ofList, String.ofList_toList, List.flatMap_append,
    List.length_append] at bytes
  rw [Text.trim]
  omega

/-- Fewer than 64 bytes are not read as a hash. -/
theorem tipOf_short {bytes : Bytes} (short : bytes.length < 64) : tipOf bytes = none := by
  unfold tipOf
  split
  · rename_i text decoded
    have trimmed := length_encode_trim_le text
    rw [Utf8.encode_of_decode decoded] at trimmed
    have wrong : (Text.trim text).toUTF8.data.toList.length ≠ 64 := by
      have length : (Utf8.encode (Text.trim text)).length ≠ 64 := by omega
      exact length
    rw [Hash.fromHex]
    simp only [wrong, ne_eq, not_false_eq_true, dite_true]
    rfl
  · rfl

/-- A part of the text of a ref is read as the hash if it has all the digits, and as nothing
otherwise.
-/
theorem tipOf_take_refText (target : Hash) (count : Nat)
    : tipOf ((refText target).take count) = if 64 ≤ count then some target else none := by
  have digits := length_encode_toHex target
  split
  · rename_i enough
    rcases Nat.eq_or_lt_of_le enough with rfl | whole
    · rw [refText_eq, ← digits, List.take_left, tipOf_digits]
    · rw [List.take_of_length_le, tipOf_refText]
      rw [refText_eq, List.length_append, digits, List.length_singleton]
      omega
  · exact tipOf_short (by rw [List.length_take]; omega)

-- A stop during an update

variable {repo : Repo} {name : String} {world : World}

/-- Where a process that stops after some effects leaves the ref it moves: untouched, or emptied
and written in part.
-/
theorem updateBranch_stopped {branch : Branch} (read : repo.branchAt world.fs name = .ok branch)
    (target : Hash) (effects : Nat)
    : ∃ path inode,
        World.resolve world.fs (repo.branchRefPath name) = .ok path
        ∧ world.fs.inodeAt path = some inode
        ∧ (Run.stateOf (repo.updateBranch name target
            { world with deadline := some effects })).fs
          = if effects = 0 then world.fs
            else (world.fs.setContent inode []).append inode
              ((refText target).take (effects - 1)) := by
  obtain ⟨-, path, resolved, held⟩ := branchAt_eq_ok.mp read
  obtain ⟨bytes, file, -⟩ := Option.bind_eq_some_iff.mp held
  obtain ⟨inode, found, -⟩ := Option.map_eq_some_iff.mp file
  refine ⟨path, inode, resolved, found, ?_⟩
  have here := FileSystem.inodeAt_eq_some.mp found
  have there : World.present world.fs (repo.branchRefPath name) = true := by
    simp [World.present, resolved, here]
  let dying : World := { world with deadline := some effects }
  have exists_ : repo.refExists name dying = .ok true dying := by
    rw [refExists_apply, there]
  have parents : createParents (repo.branchRefPath name) dying = .ok () dying :=
    World.createParents_of_resolve resolved
  rw [updateBranch, Run.bind_of_ok exists_]
  simp only [Bool.not_true, Bool.false_eq_true, if_false]
  rw [writeBranch, Run.bind_of_ok parents, World.writeFile, Run.get_bind_apply]
  simp only [dying, resolved, here]
  rw [← refText]
  cases effects with
  | zero => rfl
  | succ left =>
    rw [Run.bind_apply]
    simp only [World.change, World.append, Nat.add_one_ne_zero, if_false, Nat.add_sub_cancel]
    split
    · rename_i whole
      rw [List.take_of_length_le whole]
      rfl
    · rfl

/-- A branch whose update is stopped is read as its old or its new target exactly if the stop
falls before the ref is emptied or not before its 64 digits are written.
-/
theorem update_survives_iff {old : Hash} (read : repo.readBranch name world = .ok ⟨name, old⟩ world)
    (target : Hash) (effects : Nat)
    : (∃ found next,
        repo.readBranch name (Run.stateOf (repo.updateBranch name target
            { world with deadline := some effects })).restarted
          = .ok ⟨name, found⟩ next
        ∧ (found = old ∨ found = target))
      ↔ effects = 0 ∨ 65 ≤ effects := by
  have before : repo.branchAt world.fs name = .ok ⟨name, old⟩ := by
    rw [readBranch_apply] at read
    cases found : repo.branchAt world.fs name with
    | error error => simp [found] at read
    | ok branch =>
      rw [found, Run.ofExcept_ok, EStateM.Result.ok.injEq] at read
      rw [read.1]
  obtain ⟨path, inode, resolved, found, left⟩ := updateBranch_stopped before target effects
  generalize Run.stateOf (repo.updateBranch name target
    { world with deadline := some effects }) = stopped at left ⊢
  have reads (branch : Branch) : (∃ next, repo.readBranch name stopped.restarted = .ok branch next)
      ↔ repo.branchAt stopped.fs name = .ok branch := by
    rw [readBranch_apply, World.restarted]
    cases repo.branchAt stopped.fs name <;> simp
  by_cases early : effects = 0
  · rw [if_pos early] at left
    obtain ⟨next, again⟩ := (reads ⟨name, old⟩).mpr (left ▸ before)
    exact ⟨fun _ => .inl early, fun _ => ⟨old, next, again, .inl rfl⟩⟩
  · rw [if_neg early] at left
    have file : stopped.fs.fileAt path = some ((refText target).take (effects - 1)) := by
      rw [left, FileSystem.fileAt, FileSystem.inodeAt_append, FileSystem.inodeAt_setContent, found,
        Option.map_some, FileSystem.content_append, if_pos rfl, FileSystem.content_setContent,
        if_pos rfl, List.nil_append]
    have place : World.resolve stopped.fs (repo.branchRefPath name) = .ok path := by
      refine World.resolve_mono (fun _ dir => ?_) resolved
      rw [left, FileSystem.node_append, FileSystem.node_setContent, dir]
    have tip (found : Hash) : repo.branchAt stopped.fs name = .ok ⟨name, found⟩
        ↔ (if 64 ≤ effects - 1 then some target else none) = some found := by
      rw [branchAt_eq_ok, ← tipOf_take_refText]
      constructor
      · rintro ⟨-, other, resolved, held⟩
        rw [place] at resolved
        cases resolved
        rwa [file] at held
      · intro held
        exact ⟨rfl, path, place, by rw [file]; exact held⟩
    constructor
    · rintro ⟨found, next, again, -⟩
      have held := (tip found).mp ((reads _).mp ⟨next, again⟩)
      split at held
      · exact .inr (by omega)
      · cases held
    · rintro (never | enough)
      · exact absurd never early
      · obtain ⟨next, again⟩ := (reads ⟨name, target⟩).mpr ((tip target).mpr (if_pos (by omega)))
        exact ⟨target, next, again, .inr rfl⟩

-- A branch just made

def branchWorld : World := Run.stateOf (sample.createBranch "main" Hash.zero sampleWorld)

theorem branchWorld_reads
    : sample.readBranch "main" branchWorld = .ok ⟨"main", Hash.zero⟩ branchWorld := by
  have read : sample.branchAt branchWorld.fs "main" = .ok ⟨"main", Hash.zero⟩ := by
    decide +kernel
  rw [readBranch_apply, read]
  rfl

theorem length_moved : (List.replicate 32 1 : Bytes).length = 32 := List.length_replicate

def moved : Hash := ⟨List.replicate 32 1, length_moved⟩

/-- An update stopped before its line feed is written. -/
theorem update_survives_iff_branchWorld
    : ∃ found next,
        sample.readBranch "main" (Run.stateOf (sample.updateBranch "main" moved
            { branchWorld with deadline := some 65 })).restarted
          = .ok ⟨"main", found⟩ next
        ∧ (found = Hash.zero ∨ found = moved) :=
  (update_survives_iff branchWorld_reads moved 65).mpr (.inr (Nat.le_refl _))

/-- An update stopped after the ref is emptied leaves a branch that cannot be read. -/
theorem update_not_survives
    : sample.readBranch "main" branchWorld = .ok ⟨"main", Hash.zero⟩ branchWorld
      ∧ Run.errorOf (sample.readBranch "main" (Run.stateOf (sample.updateBranch "main" moved
          { branchWorld with deadline := some 1 })).restarted)
        = some (.invalidTarget "hash must be 64 hex characters, got 0") :=
  ⟨branchWorld_reads, by decide +kernel⟩

end Repo
end Epochs
