import Epochs.Disk.Files

/-! What the whole-file operations do. There are no symbolic links, so that the place a path
stands for, if it stands for one, can be read off its text.
-/

namespace Epochs.World

open Lib Run FileSystem

-- Places

/-- The place a path stands for, going by its text alone. -/
def lexical : (base : Path) → (parts : List String) → Path
  | base, [] => base
  | base, part :: rest =>
    if part = "" ∨ part = "." then lexical base rest
    else if part = ".." then lexical base.dropLast rest
    else lexical (base ++ [part]) rest

variable {fs : FileSystem} {base path : Path} {parts : List String}

/-- A path that can be walked leads where its text says. -/
theorem eq_lexical_of_walk (walked : walk fs base parts = .ok path)
    : path = lexical base parts := by
  induction parts generalizing base with
  | nil =>
    cases walked
    rfl
  | cons part rest ih =>
    rw [walk] at walked
    rw [lexical]
    split
    · rename_i trivial_
      rw [if_pos trivial_] at walked
      exact ih walked
    · rename_i named
      rw [if_neg named] at walked
      split
      · rename_i up
        rw [if_pos up] at walked
        exact ih walked
      · rename_i down
        rw [if_neg down] at walked
        split at walked
        · cases walked
        · split at walked
          · rename_i last
            subst last
            cases walked
            rfl
          · split at walked
            · exact ih walked
            · cases walked
            · cases walked

theorem eq_lexical_of_resolve (resolved : resolve fs parts = .ok path)
    : path = lexical [] parts := by
  unfold resolve at resolved
  split at resolved
  · cases resolved
  · split at resolved
    · cases resolved
    · exact eq_lexical_of_walk resolved

variable {before after : FileSystem}

/-- Whether a path can be walked depends on the directories only. -/
theorem walk_congr
    (dirs : ∀ path, before.node path = some .dir ↔ after.node path = some .dir) (base : Path)
    (parts : List String) (path : Path)
    : walk before base parts = .ok path ↔ walk after base parts = .ok path := by
  induction parts generalizing base with
  | nil => rfl
  | cons part rest ih =>
    rw [walk, walk]
    split
    · exact ih base
    · split
      · exact ih base.dropLast
      · split
        · simp
        · split
          · rfl
          · have here := dirs (base ++ [part])
            cases first : before.node (base ++ [part]) with
            | none =>
              cases second : after.node (base ++ [part]) with
              | none => simp
              | some node => cases node <;> simp_all
            | some node =>
              cases node with
              | dir =>
                rw [here.mp first]
                exact ih (base ++ [part])
              | file inode =>
                cases second : after.node (base ++ [part]) with
                | none => simp
                | some node => cases node <;> simp_all

/-- Further directories let at most more paths be walked. -/
theorem walk_mono
    (dirs : ∀ path, before.node path = some .dir → after.node path = some .dir)
    (walked : walk before base parts = .ok path)
    : walk after base parts = .ok path := by
  induction parts generalizing base with
  | nil => exact walked
  | cons part rest ih =>
    rw [walk] at walked ⊢
    split
    · rename_i trivial_
      rw [if_pos trivial_] at walked
      exact ih walked
    · rename_i named
      rw [if_neg named] at walked
      split
      · rename_i up
        rw [if_pos up] at walked
        exact ih walked
      · rename_i down
        rw [if_neg down] at walked
        split
        · rename_i long
          rw [if_pos long] at walked
          cases walked
        · rename_i short
          rw [if_neg short] at walked
          split
          · rename_i last
            rwa [if_pos last] at walked
          · rename_i more
            rw [if_neg more] at walked
            split at walked
            · rename_i dir
              rw [dirs _ dir]
              exact ih walked
            · cases walked
            · cases walked

theorem resolve_congr
    (dirs : ∀ path, before.node path = some .dir ↔ after.node path = some .dir)
    (parts : List String) (path : Path)
    : resolve before parts = .ok path ↔ resolve after parts = .ok path := by
  unfold resolve
  split
  · simp
  · split
    · simp
    · exact walk_congr dirs [] parts path

theorem resolve_mono
    (dirs : ∀ path, before.node path = some .dir → after.node path = some .dir)
    (resolved : resolve before parts = .ok path)
    : resolve after parts = .ok path := by
  unfold resolve at resolved ⊢
  split
  · rename_i nul
    rw [if_pos nul] at resolved
    cases resolved
  · rename_i plain
    rw [if_neg plain] at resolved
    split
    · rename_i long
      rw [if_pos long] at resolved
      cases resolved
    · rename_i short
      rw [if_neg short] at resolved
      exact walk_mono dirs resolved

/-- A path that names every place it passes is walked by looking at these places. -/
theorem walk_of_nodes {before after : FileSystem}
    (named : ∀ part ∈ parts, part ≠ "" ∧ part ≠ "." ∧ part ≠ "..")
    (nodes : ∀ front, front <+: parts → after.node (base ++ front) = before.node (base ++ front))
    : walk after base parts = walk before base parts := by
  induction parts generalizing base with
  | nil => rfl
  | cons part rest ih =>
    obtain ⟨⟨notEmpty, notHere, notUp⟩, others⟩ := List.forall_mem_cons.mp named
    have further := @ih (base ++ [part]) others fun front above => by
      have same := nodes (part :: front) (List.cons_prefix_cons.mpr ⟨rfl, above⟩)
      rwa [List.append_cons] at same
    have here := nodes [part] (by simp)
    simp [walk, notEmpty, notHere, notUp, here, further]

theorem resolve_of_nodes
    (named : ∀ part ∈ parts, part ≠ "" ∧ part ≠ "." ∧ part ≠ "..")
    (nodes : ∀ front, front <+: parts → after.node front = before.node front)
    : resolve after parts = resolve before parts := by
  unfold resolve
  rw [@walk_of_nodes [] parts before after named nodes]

/-- Without `..` a path leads below where it starts. -/
theorem lexical_of_down (down : ".." ∉ parts)
    : lexical base parts = base ++ parts.filter fun part => part ≠ "" ∧ part ≠ "." := by
  induction parts generalizing base with
  | nil => simp [lexical]
  | cons part rest ih =>
    have further : ".." ∉ rest := fun member => down (List.mem_cons_of_mem _ member)
    rw [lexical]
    split
    · rename_i trivial_
      rw [ih further, List.filter_cons_of_neg]
      rcases trivial_ with rfl | rfl <;> simp
    · rename_i named
      rw [if_neg (fun up => down (by simp [up])), ih further, List.filter_cons_of_pos]
      · simp
      · simpa [not_or] using named

/-- Parts that name a place by themselves and that the system takes. -/
structure Direct (parts : List String) : Prop where
  named : ∀ part ∈ parts, part ≠ "" ∧ part ≠ "." ∧ part ≠ ".."
  readable : ∀ part ∈ parts, '\x00' ∉ part.toList
  short : ∀ part ∈ parts, Text.len part ≤ 255
  total : textLength parts < 4096

theorem walk_of_dirs (named : ∀ part ∈ parts, part ≠ "" ∧ part ≠ "." ∧ part ≠ "..")
    (short : ∀ part ∈ parts, Text.len part ≤ 255)
    (dirs : ∀ front, front <+: parts → front ≠ [] → front ≠ parts
      → fs.node (base ++ front) = some .dir)
    : walk fs base parts = .ok (base ++ parts) := by
  induction parts generalizing base with
  | nil => simp [walk]
  | cons part rest ih =>
    obtain ⟨notEmpty, notHere, notUp⟩ := named part List.mem_cons_self
    have fits := short part List.mem_cons_self
    rw [walk, if_neg (by simp [notEmpty, notHere]), if_neg notUp, if_neg (by omega)]
    split
    · rename_i last
      rw [last]
    · rename_i more
      have dir : fs.node (base ++ [part]) = some .dir :=
        dirs [part] ⟨rest, rfl⟩ (by simp) (by simpa using Ne.symm more)
      rw [dir]
      dsimp only
      rw [ih (fun other member => named other (List.mem_cons_of_mem _ member))
        (fun other member => short other (List.mem_cons_of_mem _ member)) fun front above _ less => ?_]
      · simp
      · rw [List.append_assoc]
        exact dirs (part :: front) (List.cons_prefix_cons.mpr ⟨rfl, above⟩) (by simp)
          (by simpa using less)

/-- The parts that count in a path that can be walked are short. -/
theorem short_of_walk (walked : walk fs base parts = .ok path)
    : ∀ part ∈ parts, part ≠ "" → part ≠ "." → part ≠ ".." → Text.len part ≤ 255 := by
  induction parts generalizing base with
  | nil => simp
  | cons part rest ih =>
    intro other member notEmpty notHere notUp
    rw [walk] at walked
    split at walked
    · rename_i trivial_
      rcases List.mem_cons.mp member with rfl | later
      · simp [notEmpty, notHere] at trivial_
      · exact ih walked other later notEmpty notHere notUp
    · split at walked
      · rename_i up
        rcases List.mem_cons.mp member with rfl | later
        · exact absurd up notUp
        · exact ih walked other later notEmpty notHere notUp
      · split at walked
        · cases walked
        · rename_i fits
          rcases List.mem_cons.mp member with rfl | later
          · omega
          · split at walked
            · rename_i last
              rw [last] at later
              cases later
            · split at walked
              · exact ih walked other later notEmpty notHere notUp
              · cases walked
              · cases walked

/-- Direct parts stand for themselves, if the directories above are there. -/
theorem resolve_of_dirs (direct : Direct parts)
    (dirs : ∀ front, front <+: parts → front ≠ parts → fs.node front = some .dir)
    : resolve fs parts = .ok parts := by
  have readable : ¬ (parts.any fun part => part.toList.contains '\x00') = true := by
    simpa using direct.readable
  rw [resolve, if_neg readable, if_neg (Nat.not_le.mpr direct.total),
    walk_of_dirs direct.named direct.short fun front above _ less => dirs front above less,
    List.nil_append]

theorem textLength_of_sublist {front parts : List String} (fewer : front.Sublist parts)
    : textLength front ≤ textLength parts := by
  unfold textLength
  induction fewer with
  | slnil => exact Nat.le_refl _
  | cons part _ ih => exact Nat.le_trans ih (Nat.le_add_left _ _)
  | cons_cons part _ ih => exact Nat.add_le_add_left ih _

/-- A path without `..` that can be resolved has direct parts, but for those that do not count. -/
theorem direct_of_resolve (down : ".." ∉ parts) (resolved : resolve fs parts = .ok path)
    : Direct (parts.filter fun part => part ≠ "" ∧ part ≠ ".") := by
  have counts {part : String} (member : part ∈ parts.filter fun part => part ≠ "" ∧ part ≠ ".")
      : part ∈ parts ∧ part ≠ "" ∧ part ≠ "." := by
    simpa using List.mem_filter.mp member
  unfold resolve at resolved
  split at resolved
  · cases resolved
  · rename_i readable
    split at resolved
    · cases resolved
    · rename_i total
      have shorter := textLength_of_sublist
          (List.filter_sublist : (parts.filter fun part => part ≠ "" ∧ part ≠ ".").Sublist parts)
      refine ⟨fun part member => ?_, fun part member => ?_, fun part member => ?_, by omega⟩
      · obtain ⟨inParts, notEmpty, notHere⟩ := counts member
        exact ⟨notEmpty, notHere, fun up => down (up ▸ inParts)⟩
      · have each : ∀ part ∈ parts, '\x00' ∉ part.toList := by simpa using readable
        exact each part (counts member).1
      · obtain ⟨inParts, notEmpty, notHere⟩ := counts member
        exact short_of_walk resolved part inParts notEmpty notHere fun up => down (up ▸ inParts)

theorem lexical_append (first second : List String)
    : lexical base (first ++ second) = lexical (lexical base first) second := by
  induction first generalizing base with
  | nil => rfl
  | cons part rest ih =>
    rw [List.cons_append, lexical, lexical]
    split
    · exact ih
    · split
      · exact ih
      · exact ih

-- Reading

def present (fs : FileSystem) (parts : List String) : Bool :=
  match resolve fs parts with
  | .ok path => (fs.node path).isSome
  | .error _ => false

theorem exists_apply (parts : List String) (world : World)
    : exists_ parts world = .ok (present world.fs parts) world := by
  rw [exists_, get_bind_apply]
  cases resolved : resolve world.fs parts with
  | ok path => simp [present, resolved]
  | error error => simp [present, resolved]

def textAt (fs : FileSystem) (parts : List String) : Except EpochsError String :=
  match resolve fs parts with
  | .error error => .error error
  | .ok path =>
    match fs.node path with
    | some .dir => .error isADirectory
    | none => .error noSuchFile
    | some (.file inode) =>
      match Utf8.decode (fs.content inode) with
      | some text => .ok text
      | none => .error invalidUtf8

theorem readToString_apply (parts : List String) (world : World)
    : readToString parts world = ofExcept (textAt world.fs parts) world := by
  rw [readToString, get_bind_apply]
  cases resolved : resolve world.fs parts with
  | error error => simp [textAt, resolved]
  | ok path =>
    cases found : world.fs.node path with
    | none => simp [textAt, resolved, found]
    | some node =>
      cases node with
      | dir => simp [textAt, resolved, found]
      | file inode =>
        cases decoded : Utf8.decode (world.fs.content inode) with
        | none => simp [textAt, resolved, found, decoded]
        | some text => simp [textAt, resolved, found, decoded]

/-- What is read at a path depends on the places it passes and the file it leads to. -/
theorem read_of_nodes
    (named : ∀ part ∈ parts, part ≠ "" ∧ part ≠ "." ∧ part ≠ "..")
    (nodes : ∀ front, front <+: parts → after.node front = before.node front)
    (file : after.fileAt parts = before.fileAt parts)
    : present after parts = present before parts ∧ textAt after parts = textAt before parts := by
  have resolved := resolve_of_nodes named nodes
  have here := nodes parts List.prefix_rfl
  have place {path : Path} (found : resolve before parts = .ok path) : path = parts := by
    rw [eq_lexical_of_resolve found, lexical_of_down fun up => (named ".." up).2.2 rfl,
      List.nil_append, List.filter_eq_self]
    intro part member
    simpa using ⟨(named part member).1, (named part member).2.1⟩
  unfold present textAt
  rw [resolved]
  cases found : resolve before parts with
  | error error => exact ⟨rfl, rfl⟩
  | ok path =>
    obtain rfl := place found
    dsimp only
    rw [here]
    refine ⟨rfl, ?_⟩
    cases stands : before.node path with
    | none => rfl
    | some node =>
      cases node with
      | dir => rfl
      | file inode =>
        have content : after.content inode = before.content inode := by
          rw [stands] at here
          simpa [fileAt, inodeAt, stands, here] using file
        dsimp only
        rw [content]

/-- A file that is there and holds UTF-8. -/
theorem textAt_of_file {bytes : Bytes} {text : String} (resolved : resolve fs parts = .ok path)
    (found : fs.fileAt path = some bytes) (decoded : Utf8.decode bytes = some text)
    : textAt fs parts = .ok text := by
  obtain ⟨inode, here, rfl⟩ := Option.map_eq_some_iff.mp found
  simp [textAt, resolved, inodeAt_eq_some.mp here, decoded]

-- Writing

def trail : (base : Path) → (parts : List String) → List Path
  | _, [] => []
  | base, part :: rest =>
    if part = "" ∨ part = "." then trail base rest
    else if part = ".." then trail base.dropLast rest
    else (base ++ [part]) :: trail (base ++ [part]) rest

/-- Without `..` the way leads from where it starts to where the path leads. -/
theorem mem_trail_of_down (down : ".." ∉ parts) {on : Path} (member : on ∈ trail base parts)
    : base <+: on ∧ on ≠ base ∧ on <+: lexical base parts := by
  induction parts generalizing base with
  | nil => cases member
  | cons part rest ih =>
    have further : ".." ∉ rest := fun member => down (List.mem_cons_of_mem _ member)
    rw [trail] at member
    rw [lexical]
    split
    · rename_i trivial_
      rw [if_pos trivial_] at member
      exact ih further member
    · rename_i named
      have notUp : part ≠ ".." := fun up => down (by simp [up])
      rw [if_neg named, if_neg notUp] at member
      rw [if_neg notUp]
      rcases List.mem_cons.mp member with rfl | later
      · refine ⟨List.prefix_append _ _, by simp, ?_⟩
        rw [lexical_of_down further]
        exact List.prefix_append _ _
      · obtain ⟨above, -, below⟩ := ih further later
        refine ⟨(List.prefix_append base [part]).trans above, ?_, below⟩
        rintro rfl
        have longer := above.length_le
        simp only [List.length_append, List.length_singleton] at longer
        omega

/-- Only directories on the way are made, also when the call fails. -/
theorem makeDirs_meets {added : Path → Prop} (base : Path) (parts : List String) (world : World)
    (new : ∀ path ∈ trail base parts, added path)
    : Meets
        (fun _ next => AddsDirs added world.fs next.fs ∧ Lives world next)
        (fun reason next => AddsDirs added world.fs next.fs ∧ Lives world next
          ∧ ((∃ error, reason = .err error) ∨ Killed world reason))
        (makeDirs base parts world) := by
  induction parts generalizing base world with
  | nil => exact ⟨AddsDirs.refl _ _, id⟩
  | cons part rest ih =>
    rw [makeDirs]
    rw [trail] at new
    split
    · rename_i trivial_
      rw [if_pos trivial_] at new
      exact ih base world new
    · rename_i named
      rw [if_neg named] at new
      split
      · rename_i up
        rw [if_pos up] at new
        exact ih base.dropLast world new
      · rename_i down
        rw [if_neg down] at new
        have here := new _ List.mem_cons_self
        have later := fun path member => new path (List.mem_cons_of_mem _ member)
        split
        · exact ⟨AddsDirs.refl _ _, id, .inl ⟨_, rfl⟩⟩
        · rw [get_bind_apply]
          cases found : world.fs.node (base ++ [part]) with
          | some node =>
            cases node with
            | dir => exact ih _ world later
            | file inode => exact ⟨AddsDirs.refl _ _, id, .inl ⟨_, rfl⟩⟩
          | none =>
            refine Meets.bind ((change_meets _ world).imp (fun _ _ changed => changed) ?_) ?_
            · rintro reason next ⟨killed, same⟩
              exact ⟨same ▸ AddsDirs.refl _ _, fun alive => absurd alive killed.2,
                .inr killed⟩
            · intro _ middle _ ⟨made, lives⟩
              have first : AddsDirs added world.fs middle.fs :=
                made ▸ .of_mkdir here found
              refine (ih _ middle later).imp ?_ ?_
              · rintro _ next ⟨adds, stillLives⟩
                exact ⟨first.trans adds, fun alive => stillLives (lives alive)⟩
              · rintro reason next ⟨adds, stillLives, cause⟩
                refine ⟨first.trans adds, fun alive => stillLives (lives alive),
                  cause.imp_right ?_⟩
                exact fun killed => ⟨killed.1, fun alive => killed.2 (lives alive)⟩

theorem createDirs_meets {added : Path → Prop} (parts : List String) (world : World)
    (new : ∀ path ∈ trail [] parts, added path)
    : Meets
        (fun _ next => AddsDirs added world.fs next.fs ∧ Lives world next)
        (fun reason next => AddsDirs added world.fs next.fs ∧ Lives world next
          ∧ ((∃ error, reason = .err error) ∨ Killed world reason))
        (createDirs parts world) := by
  unfold createDirs
  split
  · exact ⟨AddsDirs.refl _ _, id, .inl ⟨_, rfl⟩⟩
  · split
    · exact ⟨AddsDirs.refl _ _, id, .inl ⟨_, rfl⟩⟩
    · exact makeDirs_meets [] parts world new

/-- Replacing the bytes of a file that is there. -/
theorem overwrite_meets {inode : Nat} (bytes : Bytes) {world : World}
    (found : world.fs.inodeAt path = some inode)
    : Meets
        (fun _ next => Alters path world.fs next.fs ∧ Lives world next
          ∧ next.fs.fileAt path = some bytes)
        (fun reason next => Killed world reason ∧ Alters path world.fs next.fs)
        ((do change fun fs => fs.setContent inode []; append inode bytes) world) := by
  refine Meets.bind ((change_meets _ world).imp (fun _ _ changed => changed) ?_) ?_
  · rintro reason next ⟨killed, same⟩
    exact ⟨killed, same ▸ Alters.refl _ _⟩
  · rintro _ middle _ ⟨emptied, lives⟩
    have still : middle.fs.inodeAt path = some inode := by rw [emptied]; exact found
    have first : Alters path world.fs middle.fs := by
      refine .of_contents found (by rw [emptied]; rfl) (by rw [emptied]; rfl) ?_
      intro other different
      rw [emptied, content_setContent, if_neg different]
    refine (append_meets inode bytes middle).imp ?_ ?_
    · rintro _ next ⟨appended, stillLives⟩
      refine ⟨first.trans (.of_appended still appended), fun alive => stillLives (lives alive), ?_⟩
      rw [fileAt, appended.inodeAt, still, Option.map_some, appended.content_self,
        emptied, content_setContent, if_pos rfl, List.nil_append]
    · rintro reason next ⟨killed, written, appended, -⟩
      exact ⟨⟨killed.1, fun alive => killed.2 (lives alive)⟩,
        first.trans (.of_appended still appended)⟩

/-- Writing a file that is not there. -/
theorem writeNew_meets (bytes : Bytes) {world : World} (free : world.fs.node path = none)
    : Meets
        (fun _ next => Alters path world.fs next.fs ∧ Lives world next
          ∧ next.fs.fileAt path = some bytes)
        (fun reason next => Killed world reason ∧ Alters path world.fs next.fs)
        ((do change fun fs => fs.create path; append world.fs.nextInode bytes) world) := by
  have named : path ≠ [] := by
    rintro rfl
    simp [node] at free
  refine Meets.bind ((change_meets _ world).imp (fun _ _ changed => changed) ?_) ?_
  · rintro reason next ⟨killed, same⟩
    exact ⟨killed, same ▸ Alters.refl _ _⟩
  · rintro _ middle _ ⟨created, lives⟩
    have still : middle.fs.inodeAt path = some world.fs.nextInode := by
      rw [created, inodeAt_create named, if_pos rfl]
    have first : Alters path world.fs middle.fs :=
      created ▸ .of_create named free
    refine (append_meets world.fs.nextInode bytes middle).imp ?_ ?_
    · rintro _ next ⟨appended, stillLives⟩
      refine ⟨first.trans (.of_appended still appended), fun alive => stillLives (lives alive), ?_⟩
      rw [fileAt, appended.inodeAt, still, Option.map_some, appended.content_self,
        created, content_create, if_pos rfl, List.nil_append]
    · rintro reason next ⟨killed, written, appended, -⟩
      exact ⟨⟨killed.1, fun alive => killed.2 (lives alive)⟩,
        first.trans (.of_appended still appended)⟩

/-- Writing changes the file at the path alone; it fails without a change, or is killed. -/
theorem writeFile_meets (parts : List String) (bytes : Bytes) (world : World)
    : Meets
        (fun _ next => ∃ path, resolve world.fs parts = .ok path
          ∧ Alters path world.fs next.fs ∧ Lives world next
          ∧ next.fs.fileAt path = some bytes)
        (fun reason next => ((∃ error, reason = .err error) ∧ next = world)
          ∨ (Killed world reason ∧ ∃ path, resolve world.fs parts = .ok path
            ∧ Alters path world.fs next.fs))
        (writeFile parts bytes world) := by
  rw [writeFile, get_bind_apply]
  cases resolved : resolve world.fs parts with
  | error error => exact .inl ⟨⟨_, rfl⟩, rfl⟩
  | ok path =>
    dsimp only
    cases found : world.fs.node path with
    | none =>
      refine (writeNew_meets bytes found).imp ?_ ?_
      · rintro _ next written
        exact ⟨path, rfl, written⟩
      · rintro reason next ⟨killed, alters⟩
        exact .inr ⟨killed, path, rfl, alters⟩
    | some node =>
      cases node with
      | dir => exact .inl ⟨⟨_, rfl⟩, rfl⟩
      | file inode =>
        refine (overwrite_meets bytes (inodeAt_eq_some.mpr found)).imp ?_ ?_
        · rintro _ next written
          exact ⟨path, rfl, written⟩
        · rintro reason next ⟨killed, alters⟩
          exact .inr ⟨killed, path, rfl, alters⟩

/-- Removing changes the file at the path alone; it fails without a change, or is killed. -/
theorem removeFile_meets (parts : List String) (world : World)
    : Meets
        (fun _ next => ∃ path, resolve world.fs parts = .ok path
          ∧ Alters path world.fs next.fs ∧ Lives world next
          ∧ next.fs.node path = none)
        (fun reason next => ((∃ error, reason = .err error) ∧ next = world)
          ∨ (Killed world reason ∧ next.fs = world.fs))
        (removeFile parts world) := by
  rw [removeFile, get_bind_apply]
  cases resolved : resolve world.fs parts with
  | error error => exact .inl ⟨⟨_, rfl⟩, rfl⟩
  | ok path =>
    dsimp only
    cases found : world.fs.node path with
    | none => exact .inl ⟨⟨_, rfl⟩, rfl⟩
    | some node =>
      cases node with
      | dir => exact .inl ⟨⟨_, rfl⟩, rfl⟩
      | file inode =>
        have named : path ≠ [] := by
          rintro rfl
          simp [node] at found
        refine (change_meets _ world).imp ?_ fun _ _ stopped => .inr stopped
        rintro _ next ⟨removed, lives⟩
        refine ⟨path, rfl, ?_, lives, ?_⟩
        · exact removed ▸ .of_unlink (inodeAt_eq_some.mpr found)
        · rw [removed, node_unlink named, if_pos rfl]

end Epochs.World
