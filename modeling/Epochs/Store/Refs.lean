import Epochs.Disk.Paths
import Epochs.Lib.Words
import Epochs.Store.Repo

/-! What the operations on refs do to the files of a repository. A name without `..` that is not
absolute stays below the directory of refs; its ref is one file there, and at most directories
above that file are made.
-/

namespace Epochs

open Lib Run FileSystem

namespace Repo

-- Names

/-- A name that stays below the directory of refs. -/
structure Below (name : String) : Prop where
  relative : name.toList.head? ≠ some '/'
  down : ".." ∉ Text.split '/' name

instance (name : String) : Decidable (Below name) :=
  decidable_of_iff (name.toList.head? ≠ some '/' ∧ ".." ∉ Text.split '/' name)
    ⟨fun ⟨relative, down⟩ => ⟨relative, down⟩, fun below => ⟨below.relative, below.down⟩⟩

def refParts (name : String) : List String :=
  (Text.split '/' name).filter fun part => part ≠ "" ∧ part ≠ "."

def refPath (repo : Repo) (name : String) : Path := heads repo.path ++ refParts name

/-- The place the ref of any name is at, going by its text alone. -/
def place (repo : Repo) (name : String) : Path := World.lexical [] (repo.branchRefPath name)

/-- A repository whose directories are there, at a path without empty parts, `.` or `..`. -/
structure Stands (repo : Repo) (fs : FileSystem) : Prop where
  plain : ∀ part ∈ repo.path, part ≠ "" ∧ part ≠ "." ∧ part ≠ ".."
  dirs : ∀ front, front <+: heads repo.path → fs.node front = some .dir

variable {repo : Repo} {name other : String} {world : World} {before after fs : FileSystem}

theorem branchRefPath_of_below (below : Below name)
    : repo.branchRefPath name = heads repo.path ++ Text.split '/' name := by
  unfold branchRefPath
  split
  · rename_i rest chars
    exact absurd (by rw [chars]; rfl) below.relative
  · rfl

theorem Stands.plain_heads (stands : repo.Stands fs)
    : ∀ part ∈ heads repo.path, part ≠ "" ∧ part ≠ "." ∧ part ≠ ".." := by
  intro part member
  rcases List.mem_append.mp member with inPath | inRefs
  · exact stands.plain part inPath
  · have fixed : ∀ part ∈ ["refs", "heads"], part ≠ "" ∧ part ≠ "." ∧ part ≠ ".." := by decide
    exact fixed part inRefs

theorem Stands.down (stands : repo.Stands fs) : ".." ∉ heads repo.path :=
  fun member => (stands.plain_heads _ member).2.2 rfl

theorem Stands.filter_heads (stands : repo.Stands fs)
    : (heads repo.path).filter (fun part => part ≠ "" ∧ part ≠ ".") = heads repo.path := by
  rw [List.filter_eq_self]
  intro part member
  have named := stands.plain_heads part member
  simp [named.1, named.2.1]

theorem Stands.place_of_below (stands : repo.Stands fs) (below : Below name)
    : repo.place name = repo.refPath name := by
  rw [place, branchRefPath_of_below below, World.lexical_append, World.lexical_of_down stands.down,
    World.lexical_of_down below.down, stands.filter_heads, List.nil_append]
  rfl

variable {path : Path}

/-- Wherever a name can be resolved, it stands for its place. -/
theorem eq_place_of_resolve
    (resolved : World.resolve fs (repo.branchRefPath name) = .ok path)
    : path = repo.place name :=
  World.eq_lexical_of_resolve resolved

-- Reading

def branchAt (repo : Repo) (fs : FileSystem) (name : String) : Except EpochsError Branch :=
  if World.present fs (repo.branchRefPath name) then do
    let contents ← World.textAt fs (repo.branchRefPath name)
    let target ← Hash.fromHex (Text.trim contents)
    pure { name, target }
  else
    .error (.branchNotFound name)

theorem refExists_apply (repo : Repo) (name : String) (world : World)
    : repo.refExists name world
      = .ok (World.present world.fs (repo.branchRefPath name)) world :=
  World.exists_apply _ _

theorem readBranch_apply (repo : Repo) (name : String) (world : World)
    : repo.readBranch name world = ofExcept (repo.branchAt world.fs name) world := by
  rw [readBranch, bind_of_ok (refExists_apply repo name world), branchAt]
  cases World.present world.fs (repo.branchRefPath name) with
  | false => rfl
  | true =>
    simp only [Bool.not_true, Bool.false_eq_true, if_false, if_true]
    rw [bind_apply, World.readToString_apply]
    cases World.textAt world.fs (repo.branchRefPath name) with
    | error error => rfl
    | ok contents =>
      simp only [ofExcept_ok, bind, Except.bind]
      cases Hash.fromHex (Text.trim contents) <;> rfl

def branchesAt (repo : Repo) (fs : FileSystem) : Except EpochsError (List String) :=
  match fs.node (heads repo.path) with
  | some .dir => .ok (fileNames fs (heads repo.path))
  | some (.file _) => .error World.notADirectory
  | none => .ok []

theorem listBranches_apply (repo : Repo) (world : World)
    : repo.listBranches world = ofExcept (repo.branchesAt world.fs) world := by
  rw [listBranches, get_bind_apply, branchesAt]
  cases world.fs.node (heads repo.path) with
  | none => rfl
  | some kind => cases kind <;> rfl

/-- A ref whose place does not resolve, or at whose place nothing stands, is not found. -/
theorem branchAt_of_absent (absent : World.present fs (repo.branchRefPath name) = false)
    : repo.branchAt fs name = .error (.branchNotFound name) := by
  rw [branchAt, absent]
  rfl

/-- What a ref says depends on what stands at its place and the bytes there. -/
theorem branchAt_congr
    (resolved : ∀ path, World.resolve before (repo.branchRefPath name) = .ok path
      ↔ World.resolve after (repo.branchRefPath name) = .ok path)
    (node : after.node (repo.place name) = before.node (repo.place name))
    (file : after.fileAt (repo.place name) = before.fileAt (repo.place name))
    : repo.branchAt after name = repo.branchAt before name := by
  cases found : World.resolve before (repo.branchRefPath name) with
  | error error =>
    have still : ∀ path, World.resolve after (repo.branchRefPath name) ≠ .ok path :=
      fun path ok => by simpa [found] using (resolved path).mpr ok
    rw [branchAt_of_absent, branchAt_of_absent]
    · rw [World.present, found]
    · rw [World.present]
      split
      · rename_i path ok
        exact absurd ok (still path)
      · rfl
  | ok path =>
    have still := (resolved path).mp found
    obtain rfl := eq_place_of_resolve found
    simp only [branchAt, World.present, World.textAt, found, still, node]
    cases here : before.node (repo.place name) with
    | none => rfl
    | some kind =>
      cases kind with
      | dir => rfl
      | file inode =>
        have bytes : after.content inode = before.content inode := by
          have first := inodeAt_eq_some.mpr here
          have second := inodeAt_eq_some.mpr (node.trans here)
          simpa [fileAt, first, second] using file
        simp only [bytes]

-- Initialising

/-- Nothing of a repository stands at a path yet. -/
def Unused (fs : FileSystem) (path : Path) : Prop :=
  ∀ name ∈ ["data", "refs", "HEAD", "index.epi"], ∀ rest, fs.node (path ++ name :: rest) = none

/-- The places of a repository that are still empty when its directories are made. -/
inductive Vacancy (path : Path) : Path → Prop where
  | index : Vacancy path (path ++ ["index.epi"])
  | segment (name : String) : Vacancy path (path ++ ["data", name])
  | ref (part : String) (parts : Path) : Vacancy path (heads path ++ part :: parts)

/-- The directories of a repository are empty. -/
def Blank (fs : FileSystem) (path : Path) : Prop :=
  ∀ place, Vacancy path place → fs.node place = none

theorem Vacancy.apart {place : Path} (vacancy : Vacancy path place)
    : ¬ place <+: path ++ ["data"] ∧ ¬ place <+: heads path ∧ ¬ place <+: headPath path := by
  cases vacancy with
  | index => simp [heads, headPath, List.cons_prefix_cons]
  | segment name => simp [heads, headPath, List.cons_prefix_cons]
  | ref part parts =>
    simp only [heads, headPath, List.append_assoc, List.prefix_append_right_inj]
    simp [List.cons_prefix_cons]

theorem Unused.blank {path : Path} (unused : Unused fs path) : Blank fs path := by
  intro place vacancy
  cases vacancy with
  | index => exact unused "index.epi" (by decide) []
  | segment name => exact unused "data" (by decide) [name]
  | ref part parts =>
    rw [heads, List.append_assoc]
    exact unused "refs" (by decide) ("heads" :: part :: parts)

theorem Blank.of_grows {added : Path → Prop} (blank : Blank before path)
    (grows : Grows added before after)
    (others : ∀ place, Vacancy path place → ¬ added place)
    : Blank after path := by
  intro place vacancy
  cases found : after.node place with
  | none => rfl
  | some node =>
    rcases grows.added place node found with old | new
    · rw [blank place vacancy] at old
      cases old
    · exact absurd new (others place vacancy)

/-- The path of the HEAD file stands for itself. -/
theorem headPath_of_resolve {place : Path}
    (plain : ∀ part ∈ path, part ≠ "" ∧ part ≠ "." ∧ part ≠ "..")
    (resolved : World.resolve fs (headPath path) = .ok place)
    : place = headPath path ∧ World.Direct (headPath path) := by
  have named : ∀ part ∈ headPath path, part ≠ "" ∧ part ≠ "." ∧ part ≠ ".." := by
    intro part member
    rcases List.mem_append.mp member with inPath | inHead
    · exact plain part inPath
    · rw [List.mem_singleton.mp inHead]
      decide
  have down : ".." ∉ headPath path := fun member => (named _ member).2.2 rfl
  have counts : (headPath path).filter (fun part => part ≠ "" ∧ part ≠ ".") = headPath path := by
    rw [List.filter_eq_self]
    intro part member
    simp [(named part member).1, (named part member).2.1]
  have direct := World.direct_of_resolve down resolved
  rw [counts] at direct
  refine ⟨?_, direct⟩
  rw [World.eq_lexical_of_resolve resolved, World.lexical_of_down down, counts, List.nil_append]

/-- A new repository stands; in an unused directory its places are empty. -/
theorem init_meets (plain : ∀ part ∈ path, part ≠ "" ∧ part ≠ "." ∧ part ≠ "..")
    (world : World)
    : Meets
        (fun repo next => repo = { path, head := some "main" } ∧ repo.Stands next.fs
          ∧ World.Lives world next ∧ (world.fs.WellFormed → next.fs.WellFormed)
          ∧ (Unused world.fs path → Blank next.fs path ∧ World.Direct (headPath path)))
        (fun _ _ => True)
        (init path world) := by
  rw [init]
  refine Meets.bind ((World.createDirAll_meets _ world).imp (fun _ _ made => made)
    fun _ _ _ => trivial) ?_
  rintro _ first _ ⟨grows, lives, -⟩
  refine Meets.bind ((World.createDirAll_meets _ first).imp (fun _ _ made => made)
    fun _ _ _ => trivial) ?_
  rintro _ second _ ⟨more, stillLives, dirs⟩
  have formed (formed : world.fs.WellFormed) : second.fs.WellFormed :=
    more.formed (grows.formed formed)
  have alive (alive : world.deadline = none) := stillLives (lives alive)
  have blank (unused : Unused world.fs path) : Blank second.fs path :=
    (unused.blank.of_grows grows fun _ vacancy => vacancy.apart.1).of_grows more
      fun _ vacancy => vacancy.apart.2.1
  rw [bind_of_ok (World.exists_apply _ second)]
  split
  · refine Meets.bind ((World.writeFile_meets _ _ second).imp (fun _ _ written => written)
      fun _ _ _ => trivial) ?_
    rintro _ last _ ⟨place, resolved, alters, lasts, -⟩
    obtain ⟨rfl, near⟩ := headPath_of_resolve plain resolved
    refine ⟨rfl, ⟨plain, fun front above => alters.dirs (dirs front above)⟩,
      fun living => lasts (alive living), fun whole => alters.formed (formed whole),
      fun unused => ⟨fun place vacancy => ?_, near⟩⟩
    have apart := vacancy.apart.2.2
    rcases alters.nodes place (fun same => apart (same ▸ List.prefix_rfl)) with kept | ⟨-, -, above⟩
    · rw [kept, blank unused place vacancy]
    · exact absurd above apart
  · rename_i present
    simp only [Bool.not_eq_true', Bool.not_eq_false, World.present] at present
    split at present
    · rename_i place resolved
      exact ⟨rfl, ⟨plain, dirs⟩, alive, formed,
        fun unused => ⟨blank unused, (headPath_of_resolve plain resolved).2⟩⟩
    · cases present

-- Writing

/-- The directories above a ref are made, and nothing else. -/
theorem createParents_meets (stands : repo.Stands world.fs) (below : Below name)
    : Meets
        (fun _ next => AddsDirs
            (fun path => path <+: repo.refPath name ∧ path ≠ repo.refPath name) world.fs next.fs
          ∧ World.Lives world next)
        (fun reason next => AddsDirs
            (fun path => path <+: repo.refPath name ∧ path ≠ repo.refPath name) world.fs next.fs
          ∧ World.Lives world next
          ∧ ((∃ error, reason = .err error) ∨ World.Killed world reason))
        (createParents (repo.branchRefPath name) world) := by
  have named : (heads repo.path ++ Text.split '/' name).filter
      (fun part => part ≠ "" ∧ part ≠ ".") = repo.refPath name := by
    rw [List.filter_append, stands.filter_heads]
    rfl
  have nonempty : repo.refPath name ≠ [] := by simp [refPath, heads]
  have parent : World.parent (repo.branchRefPath name) = some (repo.refPath name).dropLast := by
    rw [branchRefPath_of_below below]
    simp only [World.parent, named, if_neg nonempty]
  have down : ".." ∉ (repo.refPath name).dropLast := by
    intro member
    have inPath := (List.dropLast_sublist _).subset member
    rw [refPath, List.mem_append] at inPath
    rcases inPath with inHeads | inParts
    · exact stands.down inHeads
    · exact below.down (List.mem_filter.mp inParts).1
  have shorter : (repo.refPath name).dropLast <+: repo.refPath name := List.dropLast_prefix _
  rw [createParents, parent]
  refine World.createDirs_meets _ world ?_
  intro path member
  obtain ⟨-, -, above⟩ := World.mem_trail_of_down down member
  have trivial_ : ((repo.refPath name).dropLast.filter fun part => part ≠ "" ∧ part ≠ ".")
      = (repo.refPath name).dropLast := by
    rw [List.filter_eq_self]
    intro part inPath
    have inNamed := (List.dropLast_sublist _).subset inPath
    rw [← named] at inNamed
    exact (List.mem_filter.mp inNamed).2
  rw [World.lexical_of_down down, trivial_, List.nil_append] at above
  refine ⟨above.trans shorter, ?_⟩
  rintro rfl
  have length := above.length_le
  have positive := List.length_pos_iff.mpr nonempty
  rw [List.length_dropLast] at length
  omega

def refText (target : Hash) : Bytes := Utf8.encode s!"{target.toHex}\n"

/-- A written ref: the file alone changed, but for directories above it. -/
theorem writeBranch_meets (stands : repo.Stands world.fs) (below : Below name) (target : Hash)
    : Meets
        (fun _ next => Alters (repo.refPath name) world.fs next.fs
          ∧ World.Lives world next
          ∧ World.resolve next.fs (repo.branchRefPath name) = .ok (repo.refPath name)
          ∧ next.fs.fileAt (repo.refPath name) = some (refText target))
        (fun reason next => Alters (repo.refPath name) world.fs next.fs
          ∧ (((∃ error, reason = .err error) ∧ World.Lives world next
              ∧ ∀ path, next.fs.fileAt path = world.fs.fileAt path)
            ∨ World.Killed world reason))
        (repo.writeBranch name target world) := by
  rw [writeBranch]
  refine Meets.bind ((createParents_meets stands below).imp (fun _ _ made => made) ?_) ?_
  · rintro reason next ⟨adds, lives, cause⟩
    exact ⟨.of_addsDirs adds, cause.imp_left fun error => ⟨error, lives, adds.fileAt⟩⟩
  · rintro _ middle _ ⟨adds, lives⟩
    have first : Alters (repo.refPath name) world.fs middle.fs := .of_addsDirs adds
    refine (World.writeFile_meets (repo.branchRefPath name) _ middle).imp ?_ ?_
    · rintro _ next ⟨path, resolved, alters, stillLives, written⟩
      obtain rfl : path = repo.refPath name :=
        (eq_place_of_resolve resolved).trans (stands.place_of_below below)
      exact ⟨first.trans alters, fun alive => stillLives (lives alive),
        World.resolve_mono (fun _ => alters.dirs) resolved, written⟩
    · rintro reason next (⟨error, rfl⟩ | ⟨killed, path, resolved, alters⟩)
      · exact ⟨first, .inl ⟨error, lives, adds.fileAt⟩⟩
      · obtain rfl : path = repo.refPath name :=
          (eq_place_of_resolve resolved).trans (stands.place_of_below below)
        exact ⟨first.trans alters, .inr ⟨killed.1, fun alive => killed.2 (lives alive)⟩⟩

/-- A change of the ref of a name. -/
inductive RefOp where
  | create (target : Hash)
  | update (target : Hash)
  | delete

def RefOp.run (repo : Repo) (name : String) : RefOp → Run EpochsError World Unit
  | .create target => repo.createBranch name target
  | .update target => repo.updateBranch name target
  | .delete => repo.deleteBranch name

def RefOp.left : RefOp → Option Bytes
  | .create target | .update target => some (refText target)
  | .delete => none

/-- However it ends, a change of a ref alters its file alone; one that fails alters no file. -/
theorem RefOp.run_meets (stands : repo.Stands world.fs) (below : Below name) (op : RefOp)
    : Meets
        (fun _ next => Alters (repo.refPath name) world.fs next.fs
          ∧ World.Lives world next
          ∧ World.resolve next.fs (repo.branchRefPath name) = .ok (repo.refPath name)
          ∧ next.fs.fileAt (repo.refPath name) = op.left)
        (fun reason next => Alters (repo.refPath name) world.fs next.fs
          ∧ (((∃ error, reason = .err error) ∧ World.Lives world next
              ∧ ∀ path, next.fs.fileAt path = world.fs.fileAt path)
            ∨ World.Killed world reason))
        (op.run repo name world) := by
  have fails (error : EpochsError) : Alters (repo.refPath name) world.fs world.fs
      ∧ (((∃ found, (.err error : Fault EpochsError) = .err found) ∧ World.Lives world world
          ∧ ∀ path, world.fs.fileAt path = world.fs.fileAt path)
        ∨ World.Killed world (.err error)) :=
    ⟨.refl _ _, .inl ⟨⟨error, rfl⟩, id, fun _ => rfl⟩⟩
  cases op with
  | create target =>
    rw [RefOp.run, createBranch, bind_of_ok (refExists_apply repo name world)]
    split
    · exact fails _
    · exact writeBranch_meets stands below target
  | update target =>
    rw [RefOp.run, updateBranch, bind_of_ok (refExists_apply repo name world)]
    split
    · exact fails _
    · exact writeBranch_meets stands below target
  | delete =>
    rw [RefOp.run, deleteBranch]
    split
    · exact fails _
    · rw [bind_of_ok (refExists_apply repo name world)]
      split
      · exact fails _
      · refine (World.removeFile_meets (repo.branchRefPath name) world).imp ?_ ?_
        · rintro _ next ⟨path, resolved, alters, lives, gone⟩
          obtain rfl : path = repo.refPath name :=
            (eq_place_of_resolve resolved).trans (stands.place_of_below below)
          exact ⟨alters, lives, World.resolve_mono (fun _ => alters.dirs) resolved,
            by simp [fileAt, inodeAt_of_none gone, RefOp.left]⟩
        · rintro reason next (⟨error, rfl⟩ | ⟨killed, same⟩)
          · exact ⟨.refl _ _, .inl ⟨error, id, fun _ => rfl⟩⟩
          · exact ⟨same ▸ .refl _ _, .inr killed⟩

theorem RefOp.run_alters (stands : repo.Stands world.fs) (below : Below name) (op : RefOp)
    : Alters (repo.refPath name) world.fs
        (stateOf (op.run repo name world)).fs := by
  have meets := op.run_meets stands below
  cases ran : op.run repo name world with
  | ok value next =>
    rw [ran] at meets
    exact meets.1
  | error reason next =>
    rw [ran] at meets
    exact meets.1

-- Isolation of names

/-- Two names a change of the first of which does not show through the second: the second is not
another spelling of the first, nor of a directory above its ref, and unless the ref of the first
stands directly in the directory of refs, it stays below that directory too.
-/
def Apart (repo : Repo) (name other : String) : Prop :=
  repo.place other ≠ repo.refPath name
  ∧ ((refParts name).length ≤ 1
    ∨ (Below other ∧ ¬ (refParts other ≠ [] ∧ refParts other <+: refParts name)))

instance (repo : Repo) (name other : String) : Decidable (repo.Apart name other) :=
  inferInstanceAs (Decidable (_ ∧ _))

/-- A path that can be walked in one file system can be walked in another one that has the same
at its end, when everything there stands in directories.
-/
theorem walk_of_rooted {fs other : FileSystem} {base : Path} {parts : List String}
    {node : Node} (rooted : fs.Rooted) (down : ".." ∉ parts)
    (walked : World.walk other base parts = .ok path) (here : fs.node path = some node)
    (there : other.node path = some node)
    : World.walk fs base parts = .ok path := by
  have place := World.eq_lexical_of_walk walked
  induction parts generalizing base with
  | nil => exact walked
  | cons part rest ih =>
    have further : ".." ∉ rest := fun member => down (List.mem_cons_of_mem _ member)
    rw [World.walk] at walked ⊢
    rw [World.lexical] at place
    split
    · rename_i trivial_
      rw [if_pos trivial_] at walked place
      exact ih further walked place
    · rename_i named
      have notUp : part ≠ ".." := fun up => down (by simp [up])
      rw [if_neg named, if_neg notUp] at walked place
      rw [if_neg notUp]
      split
      · rename_i long
        rw [if_pos long] at walked
        cases walked
      · rename_i short
        rw [if_neg short] at walked
        split
        · rename_i last
          rwa [if_pos last] at walked
        · rename_i more
          rw [if_neg more] at walked
          split at walked
          · rename_i dir
            rw [World.lexical_of_down further] at place
            have above : fs.node (base ++ [part]) = some .dir := by
              cases tail : rest.filter fun part => part ≠ "" ∧ part ≠ "." with
              | nil =>
                rw [tail, List.append_nil] at place
                subst place
                rw [dir] at there
                rw [here, there]
              | cons next others =>
                rw [tail] at place
                exact rooted.above _ (place ▸ here) (by simp)
            rw [above]
            exact ih further walked (by rw [place, World.lexical_of_down further])
          · cases walked
          · cases walked

theorem resolve_of_rooted {fs other : FileSystem} {parts : List String} {node : Node}
    (rooted : fs.Rooted) (down : ".." ∉ parts) (resolved : World.resolve other parts = .ok path)
    (here : fs.node path = some node) (there : other.node path = some node)
    : World.resolve fs parts = .ok path := by
  unfold World.resolve at resolved ⊢
  split at resolved
  · cases resolved
  · rename_i plain
    rw [if_neg plain]
    split at resolved
    · cases resolved
    · rename_i short
      rw [if_neg short]
      exact walk_of_rooted rooted down resolved here there

/-- Nothing is found under a name at whose place nothing stands. -/
theorem present_of_none (absent : fs.node (repo.place name) = none)
    : World.present fs (repo.branchRefPath name) = false := by
  unfold World.present
  split
  · rename_i path resolved
    rw [eq_place_of_resolve resolved, absent]
    rfl
  · rfl

/-- A change around the ref of one name leaves what another name says, if they are apart. -/
theorem branchAt_of_alters (stands : repo.Stands before) (formed : before.WellFormed)
    (rooted : before.Rooted) (apart : repo.Apart name other)
    (alters : Alters (repo.refPath name) before after)
    : repo.branchAt after other = repo.branchAt before other := by
  obtain ⟨different, nested⟩ := apart
  have file := alters.fileAt formed different
  -- A directory that appeared lies strictly between the directory of refs and the ref.
  have between {path : Path} (absent : before.node path = none) (above : path <+: repo.refPath name)
      : ∃ parts, parts ≠ [] ∧ parts <+: refParts name ∧ path = heads repo.path ++ parts := by
    rcases List.prefix_or_prefix_of_prefix above (List.prefix_append _ _ :
        heads repo.path <+: repo.refPath name) with inHeads | ⟨parts, rfl⟩
    · rw [stands.dirs path inHeads] at absent
      cases absent
    · refine ⟨parts, ?_, (List.prefix_append_right_inj _).mp above, rfl⟩
      rintro rfl
      rw [List.append_nil, stands.dirs _ List.prefix_rfl] at absent
      cases absent
  rcases nested with single | ⟨below, aside⟩
  · have dirs (path : Path) : before.node path = some .dir ↔ after.node path = some .dir := by
      refine ⟨alters.dirs, fun dir => ?_⟩
      by_cases here : path = repo.refPath name
      · subst here
        rcases alters.same with kept | ⟨-, notDir⟩
        · rw [← kept, dir]
        · exact absurd dir notDir
      · rcases alters.nodes path here with kept | ⟨absent, -, above⟩
        · rw [← kept, dir]
        · obtain ⟨parts, nonempty, inParts, rfl⟩ := between absent above
          have length := List.length_pos_iff.mpr nonempty
          exact absurd (by rw [refPath, inParts.eq_of_length_le (by omega)]) here
    refine branchAt_congr (World.resolve_congr dirs _) ?_ file
    rcases alters.nodes _ different with kept | ⟨absent, made, -⟩
    · exact kept
    · rw [(dirs _).mpr made] at absent
      cases absent
  · have spot := stands.place_of_below below
    have node : after.node (repo.place other) = before.node (repo.place other) := by
      rcases alters.nodes _ different with kept | ⟨absent, -, above⟩
      · exact kept
      · obtain ⟨parts, nonempty, inParts, same⟩ := between absent above
        rw [spot, refPath, List.append_cancel_left_eq] at same
        exact absurd ⟨same ▸ nonempty, same ▸ inParts⟩ aside
    have down : ".." ∉ repo.branchRefPath other := by
      rw [branchRefPath_of_below below, List.mem_append]
      rintro (inHeads | inParts)
      · exact stands.down inHeads
      · exact below.down inParts
    cases found : before.node (repo.place other) with
    | none =>
      rw [branchAt_of_absent (present_of_none found),
        branchAt_of_absent (present_of_none (node.trans found))]
    | some kind =>
      refine branchAt_congr (fun path => ⟨World.resolve_mono fun _ => alters.dirs, ?_⟩) node file
      intro resolved
      obtain rfl := eq_place_of_resolve resolved
      exact resolve_of_rooted rooted down resolved found (node.trans found)

/-- Changing the ref of a name that stays below the directory of refs changes no file but the one
that the name reads, which lies below that directory, and leaves what a name apart from it reads.
-/
theorem RefOp.run_isolated (formed : world.fs.WellFormed) (rooted : world.fs.Rooted)
    (stands : repo.Stands world.fs) (below : Below name) (apart : repo.Apart name other)
    (op : RefOp)
    : heads repo.path <+: repo.refPath name
      ∧ (∀ fs path, World.resolve fs (repo.branchRefPath name) = .ok path
        → path = repo.refPath name)
      ∧ (∀ path, path ≠ repo.refPath name
        → (Run.stateOf (op.run repo name world)).fs.fileAt path = world.fs.fileAt path)
      ∧ Run.outcomeOf (repo.readBranch other (Run.stateOf (op.run repo name world)))
        = Run.outcomeOf (repo.readBranch other world) := by
  have alters := op.run_alters stands below
  refine ⟨List.prefix_append _ _, fun fs path resolved => ?_, fun path other => ?_, ?_⟩
  · rw [eq_place_of_resolve resolved, stands.place_of_below below]
  · exact alters.fileAt formed other
  · rw [readBranch_apply, readBranch_apply,
      branchAt_of_alters stands formed rooted apart alters]
    exact Run.outcomeOf_ofExcept _ _ _

def sample : Repo := { path := ["r"], head := some "main" }

def sampleWorld : World := Run.stateOf (init ["r"] World.bare)

theorem sample_stands : sampleWorld.fs.WellFormed ∧ sample.Stands sampleWorld.fs := by
  have meets := init_meets (by decide : ∀ part ∈ ["r"], part ≠ "" ∧ part ≠ "." ∧ part ≠ "..")
    World.bare
  have ran : init ["r"] World.bare = .ok sample sampleWorld :=
    eq_ok_of_valueOf (by decide +kernel)
  rw [ran] at meets
  exact ⟨meets.2.2.2.1 wellFormed_empty, meets.2.1⟩

/-- A nested name and a name next to it. -/
theorem RefOp.run_isolated_nested
    : Below "feature/login" ∧ sample.Apart "feature/login" "main"
      ∧ Run.outcomeOf (sample.readBranch "main"
          (Run.stateOf ((RefOp.create Hash.zero).run sample "feature/login" sampleWorld)))
        = Run.outcomeOf (sample.readBranch "main" sampleWorld) :=
  ⟨by decide +kernel, by decide +kernel,
    (RefOp.run_isolated sample_stands.1 (FileSystem.rooted_of_names (by decide +kernel))
      sample_stands.2 (by decide +kernel) (by decide +kernel) (.create Hash.zero)).2.2.2⟩

/-- Names that are not isolated: one that leads out of the directory of refs writes the HEAD file;
a second spelling of a name reads what the first wrote; a nested name makes a directory where
another name reads.
-/
theorem RefOp.run_not_isolated
    : (Run.stateOf ((RefOp.update Hash.zero).run sample "../../HEAD" sampleWorld)).fs.fileAt
          (headPath sample.path)
        = some (refText Hash.zero)
      ∧ Run.valueOf (sample.readBranch "./a" sampleWorld) = none
      ∧ Run.valueOf (sample.readBranch "./a"
          (Run.stateOf ((RefOp.create Hash.zero).run sample "a" sampleWorld)))
        = some ⟨"./a", Hash.zero⟩
      ∧ Run.outcomeOf (sample.readBranch "a" sampleWorld) = .error (.err (.branchNotFound "a"))
      ∧ Run.outcomeOf (sample.readBranch "a"
          (Run.stateOf ((RefOp.create Hash.zero).run sample "a/b" sampleWorld)))
        = .error (.err World.isADirectory) := by
  decide +kernel

end Repo
end Epochs
