import Epochs.Core.Hex
import Epochs.Store.Refs

/-! The refs of a repository as a map from paths below the directory of refs to hashes, and what
the changes of refs and of HEAD do to it.
-/

namespace Epochs.Repo

open Lib World FileSystem Text

variable {repo : Repo} {name : String} {world : World} {before after fs : FileSystem}

-- What a ref file holds

def tipOf (bytes : Bytes) : Option Hash :=
  match Utf8.decode bytes with
  | some text => (Hash.fromHex (Text.trim text)).toOption
  | none => none

theorem trim_line {text : String} (solid : trim text = text)
    : trim (text ++ "\n") = text := by
  have chars : (text ++ "\n").toList = text.toList ++ ['\n'] := by simp
  rw [trim, chars, trimChars_concat _ (by decide), ← trim, solid]

theorem trim_toHex (target : Hash) : trim target.toHex = target.toHex := by
  rw [trim, trimChars_of_solid, String.ofList_toList]
  · exact fun char first => target.toHex_solid char (List.mem_of_mem_head? first)
  · exact fun char last => target.toHex_solid char (List.mem_of_getLast? last)

@[simp]
theorem tipOf_refText (target : Hash) : tipOf (refText target) = some target := by
  have line : (s!"{target.toHex}\n" : String) = target.toHex ++ "\n" := by
    rw [toString_text]
    rfl
  rw [tipOf, refText, Utf8.decode_encode, line]
  dsimp only
  rw [trim_line (trim_toHex target), Hash.fromHex_toHex]
  rfl

def tip (repo : Repo) (fs : FileSystem) (parts : Path) : Option Hash :=
  (fs.fileAt (heads repo.path ++ parts)).bind tipOf

variable {branch : Branch}

/-- A name is read exactly when it leads to a file that holds a hash. -/
theorem branchAt_eq_ok
    : repo.branchAt fs name = .ok branch
      ↔ branch.name = name
        ∧ ∃ path, resolve fs (repo.branchRefPath name) = .ok path
          ∧ (fs.fileAt path).bind tipOf = some branch.target := by
  unfold branchAt present textAt
  cases resolved : resolve fs (repo.branchRefPath name) with
  | error error => simp
  | ok path =>
    cases found : fs.node path with
    | none => simp [fileAt, inodeAt_of_none found, found]
    | some node =>
      cases node with
      | dir =>
        have unnumbered : fs.inodeAt path = none := by simp [inodeAt, found]
        simp [fileAt, unnumbered, found, bind, Except.bind]
      | file inode =>
        have file : fs.fileAt path = some (fs.content inode) := by
          rw [fileAt, inodeAt_eq_some.mpr found]
          rfl
        simp only [found, Option.isSome_some, if_true, Except.ok.injEq, exists_eq_left', file,
          Option.bind_some, tipOf]
        cases Utf8.decode (fs.content inode) with
        | none => simp [bind, Except.bind]
        | some text =>
          cases parsed : Hash.fromHex (trim text) with
          | error error => simp [bind, Except.bind, parsed, Except.toOption]
          | ok target =>
            obtain ⟨named, aimed⟩ := branch
            simp [bind, Except.bind, parsed, Except.toOption, pure, Except.pure, eq_comm]

/-- What a name below the directory of refs reads is the tip at its path. -/
theorem tip_of_branchAt (stands : repo.Stands fs) (below : Below name)
    (read : repo.branchAt fs name = .ok branch)
    : repo.tip fs (refParts name) = some branch.target := by
  obtain ⟨-, path, resolved, held⟩ := branchAt_eq_ok.mp read
  rw [eq_place_of_resolve resolved, stands.place_of_below below] at held
  exact held

/-- A name that is read keeps leading to its place, so only the file there counts. -/
theorem branchAt_of_dirs (stands : repo.Stands before) (below : Below name)
    {target : Hash} (read : repo.branchAt before name = .ok branch)
    (dirs : ∀ path, before.node path = some .dir → after.node path = some .dir)
    (held : repo.tip after (refParts name) = some target)
    : repo.branchAt after name = .ok { name, target } := by
  obtain ⟨-, path, resolved, -⟩ := branchAt_eq_ok.mp read
  refine branchAt_eq_ok.mpr ⟨rfl, path, resolve_mono (fun path => dirs path) resolved, ?_⟩
  rw [eq_place_of_resolve resolved, stands.place_of_below below]
  exact held

-- Changes of refs

def RefOp.target : RefOp → Option Hash
  | .create target | .update target => some target
  | .delete => none

theorem RefOp.tipOf_left (op : RefOp) : op.left.bind tipOf = op.target := by
  cases op <;> simp [RefOp.left, RefOp.target]

/-- A change that is made sets one tip. -/
theorem RefOp.tip_of_ok (stands : repo.Stands world.fs) (formed : world.fs.WellFormed)
    (below : Below name) (op : RefOp) {next : World} (ran : op.run repo name world = .ok () next)
    (parts : Path)
    : repo.tip next.fs parts
      = if parts = refParts name then op.target else repo.tip world.fs parts := by
  obtain ⟨alters, -, -, left⟩ := (op.run_meets stands below).of_ok ran
  split
  · rename_i same
    rw [tip, same, ← op.tipOf_left, ← left]
    rfl
  · rename_i different
    rw [tip, tip, alters.fileAt formed]
    simpa [refPath] using different

/-- A ref that was written is read. -/
theorem RefOp.branchAt_of_ok (stands : repo.Stands world.fs) (below : Below name) (op : RefOp)
    {target : Hash} (writes : op.target = some target) {next : World}
    (ran : op.run repo name world = .ok () next)
    : repo.branchAt next.fs name = .ok { name, target } := by
  obtain ⟨-, -, resolved, left⟩ := (op.run_meets stands below).of_ok ran
  refine branchAt_eq_ok.mpr ⟨rfl, _, resolved, ?_⟩
  rw [left, op.tipOf_left, writes]

/-- Every ref is found under the name that its parts make, and holds a hash. -/
def Tidy (repo : Repo) (fs : FileSystem) : Prop :=
  ∀ parts bytes, fs.fileAt (heads repo.path ++ parts) = some bytes
    → World.Direct (heads repo.path ++ parts) ∧ (∀ part ∈ parts, '/' ∉ part.toList)
      ∧ ∃ target, tipOf bytes = some target

/-- No part of a name contains a slash. -/
theorem slash_not_mem_refParts : ∀ part ∈ refParts name, '/' ∉ part.toList := by
  intro part member
  obtain ⟨chars, split, rfl⟩ := List.mem_map.mp (List.mem_filter.mp member).1
  rw [String.toList_ofList]
  intro slash
  have passed := separator_not_mem_splitChars split '/' slash
  simp at passed

theorem direct_refPath (stands : repo.Stands fs) (below : Below name) {path : Path}
    (resolved : resolve after (repo.branchRefPath name) = .ok path)
    : Direct (repo.refPath name) := by
  have down : ".." ∉ repo.branchRefPath name := by
    rw [branchRefPath_of_below below, List.mem_append]
    rintro (inHeads | inParts)
    · exact stands.down inHeads
    · exact below.down inParts
  have direct := direct_of_resolve down resolved
  rwa [branchRefPath_of_below below, List.filter_append, stands.filter_heads] at direct

/-- Changes of refs keep them tidy. -/
theorem RefOp.tidy (stands : repo.Stands world.fs) (formed : world.fs.WellFormed)
    (below : Below name) (op : RefOp) (alive : world.deadline = none) (tidy : repo.Tidy world.fs)
    : repo.Tidy (Run.stateOf (op.run repo name world)).fs := by
  have meets := op.run_meets stands below
  intro parts bytes held
  cases ran : op.run repo name world with
  | ok value next =>
    rw [ran] at meets held
    obtain ⟨alters, -, resolved, left⟩ := meets
    by_cases same : heads repo.path ++ parts = repo.refPath name
    · have parts : parts = refParts name := List.append_cancel_left same
      subst parts
      refine ⟨direct_refPath stands below resolved, slash_not_mem_refParts, ?_⟩
      rw [Run.stateOf_ok, same, left] at held
      cases op with
      | delete => cases held
      | create target | update target =>
        cases held
        exact ⟨target, tipOf_refText target⟩
    · rw [Run.stateOf_ok, alters.fileAt formed same] at held
      exact tidy parts bytes held
  | error reason next =>
    rw [ran] at meets held
    rcases meets.2 with ⟨-, -, same⟩ | ⟨-, killed⟩
    · rw [Run.stateOf_error, same] at held
      exact tidy parts bytes held
    · exact absurd alive killed

-- HEAD

def headText (name : String) : Bytes := Utf8.encode s!"ref: refs/heads/{name}\n"

/-- HEAD is pointed at what exists, and its file alone is written. -/
theorem setHead_meets (stands : repo.Stands world.fs) (name : String)
    : Run.Meets
        (fun repo' next => repo' = { repo with head := some name }
          ∧ present world.fs (repo.branchRefPath name) = true
          ∧ Alters (headPath repo.path) world.fs next.fs ∧ Lives world next
          ∧ next.fs.fileAt (headPath repo.path) = some (headText name))
        (fun reason next => ((∃ error, reason = .err error) ∧ next = world)
          ∨ (Killed world reason
            ∧ Alters (headPath repo.path) world.fs next.fs))
        (repo.setHead name world) := by
  rw [setHead, Run.bind_of_ok (refExists_apply repo name world)]
  cases present : present world.fs (repo.branchRefPath name) with
  | false => exact .inl ⟨⟨_, rfl⟩, rfl⟩
  | true =>
    simp only [Bool.not_true, Bool.false_eq_true, if_false]
    refine Run.Meets.bind ((writeFile_meets _ _ world).imp (fun _ _ written => written) ?_) ?_
    · rintro reason next (failed | ⟨killed, path, resolved, alters⟩)
      · exact .inl failed
      · exact .inr ⟨killed, (headPath_of_resolve stands.plain resolved).1 ▸ alters⟩
    · rintro _ next _ ⟨path, resolved, alters, lives, written⟩
      obtain rfl := (headPath_of_resolve stands.plain resolved).1
      exact ⟨rfl, trivial, alters, lives, written⟩

def headAt (fs : FileSystem) (path : Path) : Except EpochsError (Option String) :=
  if World.present fs (headPath path) then do
    let contents ← World.textAt fs (headPath path)
    pure (Text.stripFront headMark (Text.trim contents))
  else
    .ok none

theorem readHead_apply (path : Path) (world : World)
    : readHead path world = Run.ofExcept (headAt world.fs path) world := by
  rw [readHead, Run.bind_of_ok (exists_apply _ world), headAt]
  cases present world.fs (headPath path) with
  | false => rfl
  | true =>
    simp only [Bool.not_true, Bool.false_eq_true, if_false, if_true]
    rw [Run.bind_apply, readToString_apply]
    cases textAt world.fs (headPath path) <;> rfl

def Trimmed (name : String) : Prop := name.toList.getLast?.any Text.isWhitespace = false

instance (name : String) : Decidable (Trimmed name) := inferInstanceAs (Decidable (_ = _))

theorem stripChars_append (front rest : List Char)
    : stripChars front (front ++ rest) = some rest := by
  induction front with
  | nil => rfl
  | cons char front ih => simp [stripChars, ih]

/-- The name in the text of HEAD is read back. -/
theorem stripFront_headText (trimmed : Trimmed name)
    : stripFront headMark (trim s!"ref: refs/heads/{name}\n") = some name := by
  have line : (s!"ref: refs/heads/{name}\n" : String) = (headMark ++ name) ++ "\n" := by
    rw [toString_text]
    rfl
  have chars : (headMark ++ name).toList = headMark.toList ++ name.toList := String.toList_append
  have mark : headMark.toList = "ref: refs/heads".toList ++ ['/'] := by decide
  have solid : trim (headMark ++ name) = headMark ++ name := by
    rw [trim, trimChars_of_solid, String.ofList_toList]
    · rw [chars, mark]
      intro char first
      have same : char = 'r' := by simpa using first.symm
      rw [same]
      decide
    · rw [chars, List.getLast?_append]
      intro char last
      cases found : name.toList.getLast? with
      | some final =>
        rw [found] at last
        rw [Trimmed, found] at trimmed
        cases last
        exact trimmed
      | none =>
        rw [found, mark] at last
        have same : char = '/' := by simpa using last.symm
        rw [same]
        decide
  rw [line, trim_line solid, stripFront, chars, stripChars_append, Option.map_some,
    String.ofList_toList]

theorem resolve_headPath (stands : repo.Stands fs) (near : Direct (headPath repo.path))
    : resolve fs (headPath repo.path) = .ok (headPath repo.path) := by
  refine resolve_of_dirs near fun front above less => ?_
  rcases List.prefix_concat_iff.mp above with same | inPath
  · exact absurd same less
  · exact stands.dirs front (inPath.trans (List.prefix_append _ _))

/-- The name that HEAD was pointed at is read back. -/
theorem headAt_of_file (stands : repo.Stands fs) (near : Direct (headPath repo.path))
    (file : fs.fileAt (headPath repo.path) = some (headText name)) (trimmed : Trimmed name)
    : headAt fs repo.path = .ok (some name) := by
  have resolved := resolve_headPath stands near
  have present : present fs (headPath repo.path) = true := by
    rw [present, resolved]
    cases found : fs.node (headPath repo.path) with
    | none => simp [fileAt, inodeAt_of_none found] at file
    | some node => simp [found]
  have text := textAt_of_file resolved file (Utf8.decode_encode _)
  rw [headAt, present, if_pos rfl, text]
  exact congrArg Except.ok (stripFront_headText trimmed)

end Epochs.Repo
