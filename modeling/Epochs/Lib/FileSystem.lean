import Epochs.Lib.AssocMap
import Epochs.Lib.LittleEndian
import Epochs.Lib.RunRules
import Mathlib.Data.List.Induction

/-! File systems as a tree of names over numbered files. An open file is its number: it stays
readable and writable when its name is removed or given to another file.
-/

namespace Epochs.Lib

abbrev Path := List String

/-- What a name stands for. -/
inductive Node where
  | dir
  | file (inode : Nat)
  deriving DecidableEq

structure FileSystem where
  names : AssocMap Path Node
  contents : AssocMap Nat Bytes
  nextInode : Nat
  deriving DecidableEq

namespace FileSystem

def empty : FileSystem := ⟨[], [], 0⟩

def node (fs : FileSystem) (path : Path) : Option Node :=
  if path = [] then some .dir else AssocMap.lookup path fs.names

def inodeAt (fs : FileSystem) (path : Path) : Option Nat :=
  match fs.node path with
  | some (.file inode) => some inode
  | _ => none

def content (fs : FileSystem) (inode : Nat) : Bytes :=
  (AssocMap.lookup inode fs.contents).getD []

def fileAt (fs : FileSystem) (path : Path) : Option Bytes := (fs.inodeAt path).map fs.content

def setContent (fs : FileSystem) (inode : Nat) (bytes : Bytes) : FileSystem :=
  { fs with contents := AssocMap.insert inode bytes fs.contents }

def append (fs : FileSystem) (inode : Nat) (bytes : Bytes) : FileSystem :=
  fs.setContent inode (fs.content inode ++ bytes)

def create (fs : FileSystem) (path : Path) : FileSystem :=
  { names := AssocMap.insert path (.file fs.nextInode) fs.names
    contents := AssocMap.insert fs.nextInode [] fs.contents
    nextInode := fs.nextInode + 1 }

def mkdir (fs : FileSystem) (path : Path) : FileSystem :=
  { fs with names := AssocMap.insert path .dir fs.names }

def unlink (fs : FileSystem) (path : Path) : FileSystem :=
  { fs with names := AssocMap.erase path fs.names }

def children (fs : FileSystem) (path : Path) : List (String × Node) :=
  fs.names.filterMap fun (full, found) =>
    match full.getLast? with
    | some name => if full.dropLast = path then some (name, found) else none
    | none => none

-- Names and contents after each change

variable {fs : FileSystem} {path : Path}

variable {inode : Nat}

theorem inodeAt_eq_some
    : fs.inodeAt path = some inode ↔ fs.node path = some (.file inode) := by
  unfold inodeAt
  cases fs.node path with
  | none => simp
  | some found => cases found <;> simp

theorem inodeAt_of_none (absent : fs.node path = none) : fs.inodeAt path = none := by
  simp only [inodeAt, absent]

@[simp]
theorem node_setContent (fs : FileSystem) (inode : Nat) (bytes : Bytes) (path : Path)
    : (fs.setContent inode bytes).node path = fs.node path := rfl

@[simp]
theorem inodeAt_setContent (fs : FileSystem) (inode : Nat) (bytes : Bytes) (path : Path)
    : (fs.setContent inode bytes).inodeAt path = fs.inodeAt path := rfl

theorem content_setContent (fs : FileSystem) (inode other : Nat) (bytes : Bytes)
    : (fs.setContent inode bytes).content other
      = if other = inode then bytes else fs.content other := by
  simp only [content, setContent, AssocMap.lookup_insert]
  by_cases same : inode = other
  · simp [same]
  · simp [same, Ne.symm same]

@[simp]
theorem inodeAt_append (fs : FileSystem) (inode : Nat) (bytes : Bytes) (path : Path)
    : (fs.append inode bytes).inodeAt path = fs.inodeAt path := rfl

@[simp]
theorem node_append (fs : FileSystem) (inode : Nat) (bytes : Bytes) (path : Path)
    : (fs.append inode bytes).node path = fs.node path := rfl

theorem content_append (fs : FileSystem) (inode other : Nat) (bytes : Bytes)
    : (fs.append inode bytes).content other
      = if other = inode then fs.content inode ++ bytes else fs.content other :=
  content_setContent fs inode other _

theorem node_create (named : path ≠ []) (other : Path)
    : (fs.create path).node other
      = if other = path then some (.file fs.nextInode) else fs.node other := by
  simp only [node, create, AssocMap.lookup_insert]
  by_cases same : path = other
  · subst same
    simp [named]
  · simp [same, Ne.symm same]

theorem inodeAt_create (named : path ≠ []) (other : Path)
    : (fs.create path).inodeAt other
      = if other = path then some fs.nextInode else fs.inodeAt other := by
  simp only [inodeAt, node_create named]
  by_cases same : other = path <;> simp [same]

theorem content_create (fs : FileSystem) (path : Path) (inode : Nat)
    : (fs.create path).content inode = if inode = fs.nextInode then [] else fs.content inode := by
  simp only [content, create, AssocMap.lookup_insert]
  by_cases same : fs.nextInode = inode
  · simp [same]
  · simp [same, Ne.symm same]

theorem node_mkdir (named : path ≠ []) (other : Path)
    : (fs.mkdir path).node other = if other = path then some .dir else fs.node other := by
  simp only [node, mkdir, AssocMap.lookup_insert]
  by_cases same : path = other
  · subst same
    simp [named]
  · simp [same, Ne.symm same]

/-- A directory made at a free path changes no file. -/
theorem inodeAt_mkdir (named : path ≠ []) (free : fs.node path = none) (other : Path)
    : (fs.mkdir path).inodeAt other = fs.inodeAt other := by
  simp only [inodeAt, node_mkdir named]
  by_cases same : other = path
  · simp [same, free]
  · simp [same]

theorem node_unlink (named : path ≠ []) (other : Path)
    : (fs.unlink path).node other = if other = path then none else fs.node other := by
  simp only [node, unlink, AssocMap.lookup_erase]
  by_cases same : path = other
  · subst same
    simp [named]
  · simp [same, Ne.symm same]

theorem inodeAt_unlink (named : path ≠ []) (other : Path)
    : (fs.unlink path).inodeAt other = if other = path then none else fs.inodeAt other := by
  simp only [inodeAt, node_unlink named]
  by_cases same : other = path <;> simp [same]

-- Well-formed file systems

/-- Every named file has a number already given out, no two names share a file, and each name
stands once.
-/
structure WellFormed (fs : FileSystem) : Prop where
  numbered : ∀ path inode, fs.inodeAt path = some inode → inode < fs.nextInode
  unshared : ∀ first second inode, fs.inodeAt first = some inode → fs.inodeAt second = some inode
    → first = second
  unique : (AssocMap.keys fs.names).Nodup

theorem wellFormed_empty : empty.WellFormed where
  numbered path inode found := by
    simp only [inodeAt, node, empty, AssocMap.lookup_nil] at found
    split at found
    · rename_i dir
      split at dir <;> simp at dir
    · simp at found
  unshared first second inode found := by
    simp only [inodeAt, node, empty, AssocMap.lookup_nil] at found
    split at found
    · rename_i dir
      split at dir <;> simp at dir
    · simp at found
  unique := by simp [empty, AssocMap.keys]

theorem WellFormed.setContent (formed : fs.WellFormed) (inode : Nat) (bytes : Bytes)
    : (fs.setContent inode bytes).WellFormed :=
  ⟨formed.numbered, formed.unshared, formed.unique⟩

theorem WellFormed.append (formed : fs.WellFormed) (inode : Nat) (bytes : Bytes)
    : (fs.append inode bytes).WellFormed :=
  formed.setContent inode _

theorem WellFormed.create (formed : fs.WellFormed) (named : path ≠ [])
    : (fs.create path).WellFormed where
  numbered other inode found := by
    rw [inodeAt_create named] at found
    split at found
    · cases found
      exact Nat.lt_succ_self _
    · exact Nat.lt_succ_of_lt (formed.numbered other inode found)
  unshared first second inode atFirst atSecond := by
    rw [inodeAt_create named] at atFirst atSecond
    split at atFirst
    · rename_i isFirst
      cases atFirst
      split at atSecond
      · rename_i isSecond
        rw [isFirst, isSecond]
      · exact absurd (formed.numbered _ _ atSecond) (Nat.lt_irrefl _)
    · split at atSecond
      · cases atSecond
        exact absurd (formed.numbered _ _ atFirst) (Nat.lt_irrefl _)
      · exact formed.unshared first second inode atFirst atSecond
  unique := AssocMap.nodup_insert formed.unique _ _

theorem WellFormed.mkdir (formed : fs.WellFormed) (named : path ≠ [])
    (free : fs.node path = none)
    : (fs.mkdir path).WellFormed where
  numbered other inode found := by
    rw [inodeAt_mkdir named free] at found
    exact formed.numbered other inode found
  unshared first second inode atFirst atSecond := by
    rw [inodeAt_mkdir named free] at atFirst atSecond
    exact formed.unshared first second inode atFirst atSecond
  unique := AssocMap.nodup_insert formed.unique _ _

theorem WellFormed.unlink (formed : fs.WellFormed) (named : path ≠ [])
    : (fs.unlink path).WellFormed where
  numbered other inode found := by
    rw [inodeAt_unlink named] at found
    split at found
    · cases found
    · exact formed.numbered other inode found
  unshared first second inode atFirst atSecond := by
    rw [inodeAt_unlink named] at atFirst atSecond
    split at atFirst
    · cases atFirst
    · split at atSecond
      · cases atSecond
      · exact formed.unshared first second inode atFirst atSecond
  unique := AssocMap.nodup_erase formed.unique _

/-- The children of a directory are what stands at the paths one below it. -/
theorem WellFormed.mem_children (formed : fs.WellFormed) (path : Path) (name : String)
    (found : Node)
    : (name, found) ∈ fs.children path ↔ fs.node (path ++ [name]) = some found := by
  have named : path ++ [name] ≠ [] := by simp
  simp only [children, List.mem_filterMap, node, if_neg named]
  constructor
  · rintro ⟨⟨full, here⟩, member, selected⟩
    cases last : full.getLast? with
    | none => simp [last] at selected
    | some final =>
      simp only [last, Option.ite_none_right_eq_some, Option.some.injEq, Prod.mk.injEq]
        at selected
      obtain ⟨rfl, rfl, rfl⟩ := selected
      have whole : full.dropLast ++ [final] = full := by
        have nonempty : full ≠ [] := by
          rintro rfl
          simp at last
        rw [List.getLast?_eq_some_getLast nonempty] at last
        cases last
        exact List.dropLast_append_getLast nonempty
      rw [whole]
      exact AssocMap.lookup_of_mem formed.unique member
  · intro here
    exact ⟨(path ++ [name], found), AssocMap.mem_of_lookup here, by simp⟩

/-- The children of a directory have different names. -/
theorem WellFormed.pairwise_children (formed : fs.WellFormed) (directory : Path)
    : (fs.children directory).Pairwise fun first second => first.1 ≠ second.1 := by
  have keys : fs.names.Pairwise fun first second => first.1 ≠ second.1 :=
    List.pairwise_map.mp formed.unique
  have rebuilt {full : Path} {last name : String} {found node : Node} (final : full.getLast? = some last)
      (selected : (if full.dropLast = directory then some (last, found) else none)
        = some (name, node))
      : full = directory ++ [name] := by
    split at selected
    · rename_i here
      cases selected
      rw [← here]
      exact (List.dropLast_append_getLast? _ final).symm
    · cases selected
  refine List.Pairwise.filterMap _ ?_ keys
  rintro ⟨first, firstNode⟩ ⟨second, secondNode⟩ different ⟨name, node⟩ atFirst ⟨other, node'⟩
    atSecond same
  dsimp only at same atFirst atSecond
  subst same
  cases firstLast : first.getLast? with
  | none => simp [firstLast] at atFirst
  | some last =>
    cases secondLast : second.getLast? with
    | none => simp [secondLast] at atSecond
    | some last' =>
      rw [firstLast] at atFirst
      rw [secondLast] at atSecond
      exact different ((rebuilt firstLast atFirst).trans (rebuilt secondLast atSecond).symm)

-- Changes that only add bytes to one file

/-- Only one file changed, by bytes added at its end. -/
structure Appended (before after : FileSystem) (inode : Nat) (bytes : Bytes) : Prop where
  names : after.names = before.names
  nextInode : after.nextInode = before.nextInode
  content : ∀ other, after.content other
    = if other = inode then before.content inode ++ bytes else before.content other

namespace Appended

variable {before middle after : FileSystem} {inode : Nat} {bytes more : Bytes}

theorem refl (fs : FileSystem) (inode : Nat) : Appended fs fs inode [] where
  names := rfl
  nextInode := rfl
  content other := by
    split
    · rename_i same
      rw [same, List.append_nil]
    · rfl

theorem append (fs : FileSystem) (inode : Nat) (bytes : Bytes)
    : Appended fs (fs.append inode bytes) inode bytes :=
  ⟨rfl, rfl, fun other => content_append fs inode other bytes⟩

theorem trans (first : Appended before middle inode bytes)
    (second : Appended middle after inode more)
    : Appended before after inode (bytes ++ more) where
  names := second.names.trans first.names
  nextInode := second.nextInode.trans first.nextInode
  content other := by
    rw [second.content, first.content, first.content]
    split
    · simp
    · rfl

theorem node (appended : Appended before after inode bytes) (path : Path)
    : after.node path = before.node path := by
  simp only [FileSystem.node, appended.names]

theorem inodeAt (appended : Appended before after inode bytes) (path : Path)
    : after.inodeAt path = before.inodeAt path := by
  simp only [FileSystem.inodeAt, appended.node]

theorem content_self (appended : Appended before after inode bytes)
    : after.content inode = before.content inode ++ bytes := by
  rw [appended.content, if_pos rfl]

theorem content_of_ne (appended : Appended before after inode bytes) {other : Nat}
    (different : other ≠ inode)
    : after.content other = before.content other := by
  rw [appended.content, if_neg different]

theorem wellFormed (appended : Appended before after inode bytes) (formed : before.WellFormed)
    : after.WellFormed where
  numbered path other found := by
    rw [appended.nextInode]
    exact formed.numbered path other (appended.inodeAt path ▸ found)
  unshared first second other atFirst atSecond :=
    formed.unshared first second other (appended.inodeAt first ▸ atFirst)
      (appended.inodeAt second ▸ atSecond)
  unique := by
    rw [appended.names]
    exact formed.unique

end Appended

/-- Only one file appeared, with these bytes. -/
structure Created (before after : FileSystem) (path : Path) (bytes : Bytes) : Prop where
  node : ∀ other, after.node other
    = if other = path then some (.file before.nextInode) else before.node other
  content : ∀ inode, after.content inode
    = if inode = before.nextInode then bytes else before.content inode
  formed : before.WellFormed → after.WellFormed

namespace Created

variable {before after : FileSystem} {path : Path} {bytes : Bytes}

/-- Creating a file and writing to it. -/
theorem of_appended (named : path ≠ [])
    (appended : (before.create path).Appended after before.nextInode bytes)
    : Created before after path bytes where
  node other := by rw [appended.node, node_create named]
  content inode := by
    rw [appended.content, content_create, content_create, if_pos rfl, List.nil_append]
    split
    · rfl
    · rfl
  formed formed := appended.wellFormed (formed.create named)

theorem inodeAt (created : Created before after path bytes) (other : Path)
    : after.inodeAt other
      = if other = path then some before.nextInode else before.inodeAt other := by
  simp only [FileSystem.inodeAt, created.node]
  by_cases same : other = path <;> simp [same]

theorem content_self (created : Created before after path bytes)
    : after.content before.nextInode = bytes := by
  rw [created.content, if_pos rfl]

/-- Files that had a name keep their bytes. -/
theorem content_of_named (created : Created before after path bytes)
    (formed : before.WellFormed) {other : Path}
    (found : before.inodeAt other = some inode)
    : after.content inode = before.content inode := by
  rw [created.content, if_neg (Nat.ne_of_lt (formed.numbered other inode found))]

end Created

-- Changes that only add names

/-- Nothing that had a name changed, and new names are among the given ones. -/
structure Grows (added : Path → Prop) (before after : FileSystem) : Prop where
  kept : ∀ path node, before.node path = some node → after.node path = some node
  contents : ∀ path inode, before.inodeAt path = some inode
    → after.content inode = before.content inode
  added : ∀ path node, after.node path = some node → before.node path = some node ∨ added path
  formed : before.WellFormed → after.WellFormed

namespace Grows

variable {added more : Path → Prop} {before middle after : FileSystem}

theorem refl (added : Path → Prop) (fs : FileSystem) : Grows added fs fs :=
  ⟨fun _ _ found => found, fun _ _ _ => rfl, fun _ _ found => .inl found, id⟩

theorem inodeAt (grows : Grows added before after) {path : Path}
    (found : before.inodeAt path = some inode)
    : after.inodeAt path = some inode :=
  inodeAt_eq_some.mpr (grows.kept path _ (inodeAt_eq_some.mp found))

theorem trans (first : Grows added before middle) (second : Grows added middle after)
    : Grows added before after where
  kept path node found := second.kept path node (first.kept path node found)
  contents path inode found :=
    (second.contents path inode (first.inodeAt found)).trans (first.contents path inode found)
  added path node found := by
    rcases second.added path node found with earlier | new
    · exact first.added path node earlier
    · exact .inr new
  formed formed := second.formed (first.formed formed)

theorem mono (grows : Grows added before after) (weaker : ∀ path, added path → more path)
    : Grows more before after where
  kept := grows.kept
  contents := grows.contents
  added path node found := (grows.added path node found).imp_right (weaker path)
  formed := grows.formed

end Grows

variable {bytes : Bytes}

/-- A new file at a free path. -/
theorem Created.grows {before after : FileSystem} {path : Path}
    (created : Created before after path bytes) (formed : before.WellFormed)
    (absent : before.node path = none)
    : Grows (fun other => other = path) before after where
  kept other node found := by
    rw [created.node, if_neg, found]
    rintro rfl
    simp [absent] at found
  contents other inode found := created.content_of_named formed found
  added other node found := by
    rw [created.node] at found
    split at found
    · rename_i same
      exact .inr same
    · exact .inl found
  formed := created.formed

-- Changes around one file

/-- Everything but the root stands in a directory. -/
def Rooted (fs : FileSystem) : Prop :=
  ∀ path name node, fs.node (path ++ [name]) = some node → fs.node path = some .dir

variable {fs : FileSystem}

theorem Rooted.above (rooted : fs.Rooted) {path : Path} (rest : Path)
    {node : Node} (found : fs.node (path ++ rest) = some node) (below : rest ≠ [])
    : fs.node path = some .dir := by
  induction rest using List.reverseRecOn generalizing node with
  | nil => exact absurd rfl below
  | append_singleton front last ih =>
    rw [← List.append_assoc] at found
    have parent := rooted _ _ _ found
    cases front with
    | nil => simpa using parent
    | cons name others => exact ih parent (by simp)

/-- It is enough to look at the names listed. -/
theorem rooted_of_names
    (each : ∀ entry ∈ fs.names, fs.node entry.1.dropLast = some .dir)
    : fs.Rooted := by
  intro path name node found
  have named : path ++ [name] ≠ [] := by simp
  rw [FileSystem.node, if_neg named] at found
  simpa using each _ (AssocMap.mem_of_lookup found)

/-- At most some directories appeared, among the given paths. -/
structure AddsDirs (added : Path → Prop) (before after : FileSystem) : Prop where
  nodes : ∀ path, after.node path = before.node path
    ∨ (before.node path = none ∧ after.node path = some .dir ∧ added path)
  contents : ∀ inode, after.content inode = before.content inode
  formed : before.WellFormed → after.WellFormed

namespace AddsDirs

variable {added more : Path → Prop} {before middle after : FileSystem}

theorem refl (added : Path → Prop) (fs : FileSystem) : AddsDirs added fs fs :=
  ⟨fun _ => .inl rfl, fun _ => rfl, id⟩

theorem trans (first : AddsDirs added before middle) (second : AddsDirs added middle after)
    : AddsDirs added before after where
  nodes path := by
    rcases second.nodes path with kept | ⟨absent, made, new⟩
    · rw [kept]
      exact first.nodes path
    · rcases first.nodes path with same | ⟨-, dir, -⟩
      · exact .inr ⟨same ▸ absent, made, new⟩
      · simp [dir] at absent
  contents inode := (second.contents inode).trans (first.contents inode)
  formed formed := second.formed (first.formed formed)

theorem inodeAt (adds : AddsDirs added before after) (path : Path)
    : after.inodeAt path = before.inodeAt path := by
  rcases adds.nodes path with kept | ⟨absent, made, -⟩
  · simp only [FileSystem.inodeAt, kept]
  · simp only [FileSystem.inodeAt, absent, made]

/-- No file changes. -/
theorem fileAt (adds : AddsDirs added before after) (path : Path)
    : after.fileAt path = before.fileAt path := by
  unfold FileSystem.fileAt
  rw [adds.inodeAt]
  cases before.inodeAt path with
  | none => rfl
  | some inode => exact congrArg some (adds.contents inode)

theorem dirs (adds : AddsDirs added before after) {path : Path}
    (found : before.node path = some .dir)
    : after.node path = some .dir := by
  rcases adds.nodes path with kept | ⟨absent, -, -⟩
  · rw [kept, found]
  · simp [absent] at found

theorem of_mkdir {path : Path} (new : added path) (free : fs.node path = none)
    : AddsDirs added fs (fs.mkdir path) := by
  have named : path ≠ [] := by
    rintro rfl
    simp [FileSystem.node] at free
  exact
    { nodes := fun other => by
        rw [node_mkdir named]
        split
        · rename_i same
          exact .inr ⟨same ▸ free, rfl, same ▸ new⟩
        · exact .inl rfl
      contents := fun _ => rfl
      formed := fun formed => formed.mkdir named free }

end AddsDirs

/-- At most one file changed, appeared or went, and at most directories above it appeared. -/
structure Alters (target : Path) (before after : FileSystem) : Prop where
  nodes : ∀ path, path ≠ target
    → after.node path = before.node path
      ∨ (before.node path = none ∧ after.node path = some .dir ∧ path <+: target)
  same : after.node target = before.node target
    ∨ (before.node target ≠ some .dir ∧ after.node target ≠ some .dir)
  contents : before.WellFormed → ∀ path inode, path ≠ target → before.inodeAt path = some inode
    → after.content inode = before.content inode
  formed : before.WellFormed → after.WellFormed

namespace Alters

variable {target : Path} {before middle after : FileSystem}

theorem refl (target : Path) (fs : FileSystem) : Alters target fs fs :=
  ⟨fun _ _ => .inl rfl, .inl rfl, fun _ _ _ _ _ => rfl, id⟩

/-- Directories stay. -/
theorem dirs (alters : Alters target before after) {path : Path}
    (found : before.node path = some .dir)
    : after.node path = some .dir := by
  by_cases same : path = target
  · subst same
    rcases alters.same with kept | ⟨notDir, -⟩
    · rw [kept, found]
    · exact absurd found notDir
  · rcases alters.nodes path same with kept | ⟨absent, -, -⟩
    · rw [kept, found]
    · simp [absent] at found

/-- Files elsewhere are the same ones. -/
theorem inodeAt (alters : Alters target before after) {path : Path} (other : path ≠ target)
    : after.inodeAt path = before.inodeAt path := by
  rcases alters.nodes path other with kept | ⟨absent, made, -⟩
  · simp only [FileSystem.inodeAt, kept]
  · simp only [FileSystem.inodeAt, absent, made]

theorem trans (first : Alters target before middle) (second : Alters target middle after)
    : Alters target before after where
  nodes path other := by
    rcases second.nodes path other with kept | ⟨absent, made, above⟩
    · rw [kept]
      exact first.nodes path other
    · rcases first.nodes path other with same | ⟨-, dir, -⟩
      · exact .inr ⟨same ▸ absent, made, above⟩
      · simp [dir] at absent
  same := by
    rcases second.same with kept | ⟨notBefore, notAfter⟩
    · rw [kept]
      exact first.same
    · rcases first.same with same | ⟨never, -⟩
      · exact .inr ⟨same ▸ notBefore, notAfter⟩
      · exact .inr ⟨never, notAfter⟩
  contents formed path inode other found := by
    have still : middle.inodeAt path = some inode := by rw [first.inodeAt other, found]
    exact (second.contents (first.formed formed) path inode other still).trans
      (first.contents formed path inode other found)
  formed formed := second.formed (first.formed formed)

/-- Directories made above the target. -/
theorem of_addsDirs
    (adds : AddsDirs (fun path => path <+: target ∧ path ≠ target) before after)
    : Alters target before after where
  nodes path _ := (adds.nodes path).imp_right fun ⟨absent, made, above⟩ => ⟨absent, made, above.1⟩
  same := by
    rcases adds.nodes target with kept | ⟨-, -, above⟩
    · exact .inl kept
    · exact absurd rfl above.2
  contents _ _ inode _ _ := adds.contents inode
  formed := adds.formed

/-- New bytes in the target. -/
theorem of_contents (found : before.inodeAt target = some inode)
    (names : after.names = before.names) (next : after.nextInode = before.nextInode)
    (contents : ∀ other, other ≠ inode → after.content other = before.content other)
    : Alters target before after := by
  have node (path : Path) : after.node path = before.node path := by
    simp only [FileSystem.node, names]
  exact
    { nodes := fun path _ => .inl (node path)
      same := .inl (node target)
      contents := fun formed path other different here => contents other fun same =>
        different (formed.unshared path target inode (same ▸ here) found)
      formed := fun formed =>
        { numbered := fun path other here => by
            rw [next]
            refine formed.numbered path other ?_
            simpa only [FileSystem.inodeAt, node] using here
          unshared := fun first second other atFirst atSecond => by
            simp only [FileSystem.inodeAt, node] at atFirst atSecond
            exact formed.unshared first second other (by simpa only [FileSystem.inodeAt])
              (by simpa only [FileSystem.inodeAt])
          unique := names ▸ formed.unique } }

/-- Bytes added to the target. -/
theorem of_appended (found : before.inodeAt target = some inode)
    (appended : Appended before after inode bytes)
    : Alters target before after :=
  of_contents found appended.names appended.nextInode fun _ different =>
    appended.content_of_ne different

/-- The target appears. -/
theorem of_create {path : Path} (named : path ≠ []) (free : fs.node path = none)
    : Alters path fs (fs.create path) where
  nodes other different := .inl (by rw [node_create named, if_neg different])
  same := .inr ⟨by simp [free], by simp [node_create named]⟩
  contents formed other inode _ found := by
    rw [content_create, if_neg (Nat.ne_of_lt (formed.numbered other inode found))]
  formed formed := formed.create named

/-- The target goes. -/
theorem of_unlink {path : Path}
    (found : fs.inodeAt path = some inode)
    : Alters path fs (fs.unlink path) := by
  have here := inodeAt_eq_some.mp found
  have named : path ≠ [] := by
    rintro rfl
    simp [FileSystem.node] at here
  exact
    { nodes := fun other different => .inl (by rw [node_unlink named, if_neg different])
      same := .inr ⟨by simp [here], by simp [node_unlink named]⟩
      contents := fun _ _ _ _ _ => rfl
      formed := fun formed => formed.unlink named }

/-- Files elsewhere keep their bytes. -/
theorem fileAt (alters : Alters target before after) (formed : before.WellFormed) {path : Path}
    (other : path ≠ target)
    : after.fileAt path = before.fileAt path := by
  unfold FileSystem.fileAt
  rw [alters.inodeAt other]
  cases found : before.inodeAt path with
  | none => rfl
  | some inode => exact congrArg some (alters.contents formed path inode other found)

end Alters

-- Numbers of files

/-- No file that was there gets another name, and new files get new numbers. -/
structure Numbers (before after : FileSystem) : Prop where
  next : before.nextInode ≤ after.nextInode
  named : ∀ path inode, inode < before.nextInode → after.inodeAt path = some inode
    → before.inodeAt path = some inode
  formed : before.WellFormed → after.WellFormed

namespace Numbers

variable {before after : FileSystem}

theorem frame : Frame Numbers where
  refl _ := ⟨Nat.le_refl _, fun _ _ _ found => found, id⟩
  trans first second :=
    { next := Nat.le_trans first.next second.next
      named := fun path inode old found => first.named path inode old
        (second.named path inode (Nat.lt_of_lt_of_le old first.next) found)
      formed := fun formed => second.formed (first.formed formed) }

theorem of_appended (appended : Appended before after inode bytes)
    : Numbers before after :=
  ⟨Nat.le_of_eq appended.nextInode.symm, fun path _ _ found => appended.inodeAt path ▸ found,
    appended.wellFormed⟩

theorem of_setContent (inode : Nat) (bytes : Bytes) : Numbers fs (fs.setContent inode bytes) :=
  ⟨Nat.le_refl _, fun _ _ _ found => found, fun formed => formed.setContent inode bytes⟩

theorem of_mkdir (free : fs.node path = none) : Numbers fs (fs.mkdir path) := by
  have named : path ≠ [] := by
    rintro rfl
    simp [node] at free
  refine ⟨Nat.le_refl _, fun other inode _ found => ?_, fun formed => formed.mkdir named free⟩
  rwa [inodeAt_mkdir named free] at found

theorem of_create (free : fs.node path = none) : Numbers fs (fs.create path) := by
  have named : path ≠ [] := by
    rintro rfl
    simp [node] at free
  refine ⟨Nat.le_succ _, fun other inode old found => ?_, fun formed => formed.create named⟩
  rw [inodeAt_create named] at found
  split at found
  · cases found
    exact absurd old (Nat.lt_irrefl _)
  · exact found

theorem of_unlink (found : fs.inodeAt path = some inode)
    : Numbers fs (fs.unlink path) := by
  have named : path ≠ [] := by
    rintro rfl
    simp [inodeAt, node] at found
  refine ⟨Nat.le_refl _, fun other inode _ found => ?_, fun formed => formed.unlink named⟩
  rw [inodeAt_unlink named] at found
  split at found
  · cases found
  · exact found

end Numbers
end FileSystem
end Epochs.Lib
