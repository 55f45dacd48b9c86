import Epochs.Core.Record
import Epochs.Disk.World

/-! Segment files: the buffered writer of the active segment, the names of the files, and how
they are found, opened and created.
-/

namespace Epochs

open Lib Run FileSystem

-- Buffered writing

def segmentMaxBytes : Nat := 64 * 1024 * 1024

def segmentBufBytes : Nat := 64 * 1024

structure BufWriter where
  file : Nat
  buffer : Bytes

namespace BufWriter

def new (file : Nat) : BufWriter := ⟨file, []⟩

def flush (writer : BufWriter) : Run EpochsError World BufWriter := do
  World.append writer.file writer.buffer
  pure { writer with buffer := [] }

def makeRoom (writer : BufWriter) (length : Nat) : Run EpochsError World BufWriter :=
  if segmentBufBytes - writer.buffer.length < length then writer.flush else pure writer

/-- Write bytes: into the buffer while they are shorter than its free part. Otherwise the
buffer is emptied if they do not fit, and they go to the file at once if they are as long as
the whole buffer.
-/
def writeAll (writer : BufWriter) (bytes : Bytes) : Run EpochsError World BufWriter := do
  if bytes.length < segmentBufBytes - writer.buffer.length then
    pure { writer with buffer := writer.buffer ++ bytes }
  else do
    let writer ← writer.makeRoom bytes.length
    if segmentBufBytes ≤ bytes.length then do
      World.append writer.file bytes
      pure writer
    else
      pure { writer with buffer := writer.buffer ++ bytes }

end BufWriter

-- Segment files

def digit (value : Nat) : Char := Char.ofNat (48 + value % 10)

def segmentName (segmentId : Nat) : String :=
  String.ofList
    ([segmentId / 100000, segmentId / 10000, segmentId / 1000, segmentId / 100, segmentId / 10,
      segmentId].map digit ++ ['.', 'e', 'p', 'l'])

def segmentPathFor (repoPath : Path) (segmentId : Nat) : Path :=
  repoPath ++ ["data", segmentName segmentId]

def segmentStem (name : String) : Option (List Char) :=
  let chars := name.toList
  if chars.drop (chars.length - 4) = ['.', 'e', 'p', 'l'] then some (chars.take (chars.length - 4))
  else none

def decimalValue (chars : List Char) : Nat :=
  chars.foldl (fun value char => 10 * value + (char.toNat - 48)) 0

def parseU16 (chars : List Char) : Option Nat :=
  let digits := if chars.head? = some '+' then chars.drop 1 else chars
  if digits ≠ [] ∧ digits.all Char.isDigit ∧ decimalValue digits < 2 ^ 16 then
    some (decimalValue digits)
  else
    none

def findLatestSegment (fs : FileSystem) (repoPath : Path) : Option Nat :=
  ((fs.children (repoPath ++ ["data"])).filterMap fun (name, _) =>
    (segmentStem name).bind parseU16).max?

def openOrCreateSegment (path : Path) (segmentId : Nat) : Run EpochsError World (Nat × Nat) := do
  let exists_ := ((← get).fs.node path).isSome
  let file ← World.openAppend path
  if !exists_ then do
    let createdAt ← World.nowSecs
    World.append file (encodeSegmentHeader segmentId createdAt)
    pure (file, segmentHeaderLen)
  else do
    let bytes := (← get).fs.content file
    if bytes.length < segmentHeaderLen then
      Run.fail (.storage (.corrupt "segment shorter than header"))
    else if bytes.take 4 ≠ segmentMagic then
      Run.fail (.storage (.corrupt "invalid segment magic"))
    else
      pure (file, bytes.length)

-- Properties

theorem BufWriter.flush_meets (writer : BufWriter) (world : World)
    : Meets
        (fun after next => after = { writer with buffer := [] }
          ∧ world.fs.Appended next.fs writer.file writer.buffer ∧ world.Lives next)
        (fun reason next => world.Killed reason
          ∧ ∃ flushed, world.fs.Appended next.fs writer.file flushed
            ∧ flushed <+: writer.buffer)
        (writer.flush world) := by
  refine Meets.bind ((World.append_meets writer.file writer.buffer world).imp
    (fun _ _ appended => appended) ?_) fun _ next _ appended => ⟨rfl, appended⟩
  intro reason next killed
  obtain ⟨dying, written, appended, part, -⟩ := killed
  exact ⟨dying, written, appended, part⟩

theorem BufWriter.makeRoom_meets (writer : BufWriter) (length : Nat) (world : World)
    : Meets
        (fun after next => after.file = writer.file ∧ world.Lives next
          ∧ ∃ flushed, world.fs.Appended next.fs writer.file flushed
            ∧ flushed ++ after.buffer = writer.buffer
            ∧ (segmentBufBytes ≤ length → after.buffer = []))
        (fun reason next => world.Killed reason
          ∧ ∃ flushed, world.fs.Appended next.fs writer.file flushed
            ∧ flushed <+: writer.buffer)
        (writer.makeRoom length world) := by
  unfold makeRoom
  split
  · refine (flush_meets writer world).imp ?_ fun _ _ killed => killed
    intro after next flushed
    obtain ⟨rfl, appended, lives⟩ := flushed
    exact ⟨rfl, lives, _, appended, List.append_nil _, fun _ => rfl⟩
  · refine ⟨rfl, id, [], Appended.refl _ _, rfl, fun long => ?_⟩
    have room : 0 < segmentBufBytes := by decide
    rw [← List.length_eq_zero_iff]
    omega

/-- The writer's file grows by a first part of the buffered and written bytes, and the rest of
them is left in the buffer.
-/
theorem BufWriter.writeAll_meets (writer : BufWriter) (bytes : Bytes) (world : World)
    : Meets
        (fun after next => after.file = writer.file ∧ world.Lives next
          ∧ ∃ flushed, world.fs.Appended next.fs writer.file flushed
            ∧ flushed ++ after.buffer = writer.buffer ++ bytes)
        (fun reason next => world.Killed reason
          ∧ ∃ flushed, world.fs.Appended next.fs writer.file flushed
            ∧ flushed <+: writer.buffer ++ bytes)
        (writer.writeAll bytes world) := by
  unfold writeAll
  split
  · exact ⟨rfl, id, [], Appended.refl _ _, rfl⟩
  · refine Meets.bind ((makeRoom_meets writer bytes.length world).imp
      (fun _ _ made => made) ?_) ?_
    · intro reason next killed
      obtain ⟨dying, flushed, appended, part⟩ := killed
      exact ⟨dying, flushed, appended, part.trans (List.prefix_append _ _)⟩
    · intro after middle _ made
      obtain ⟨sameFile, lives, flushed, appended, left, emptied⟩ := made
      split
      · rename_i long
        have all : flushed = writer.buffer := by
          rw [← left, emptied long, List.append_nil]
        have written := World.append_meets after.file bytes middle
        rw [sameFile] at written ⊢
        refine Meets.bind (written.imp (fun _ _ appended => appended) ?_) ?_
        · intro reason next killed
          obtain ⟨dying, more, further, part, -⟩ := killed
          refine ⟨⟨dying.1, fun alive => dying.2 (lives alive)⟩, flushed ++ more,
            appended.trans further, ?_⟩
          rw [all]
          exact List.prefix_append_right_inj _ |>.mpr part
        · intro _ next _ further
          refine ⟨sameFile, fun alive => further.2 (lives alive), flushed ++ bytes,
            appended.trans further.1, ?_⟩
          rw [all, emptied long, List.append_nil]
      · refine ⟨sameFile, lives, flushed, appended, ?_⟩
        rw [← left, List.append_assoc]

theorem length_encodeSegmentHeader (segmentId createdAt : Nat)
    : (encodeSegmentHeader segmentId createdAt).length = segmentHeaderLen := by
  simp [encodeSegmentHeader, segmentMagic, segmentHeaderLen]

def Headed (bytes : Bytes) : Prop := segmentHeaderLen ≤ bytes.length ∧ bytes.take 4 = segmentMagic

theorem headed_encodeSegmentHeader (segmentId createdAt : Nat)
    : Headed (encodeSegmentHeader segmentId createdAt) :=
  ⟨Nat.le_of_eq (length_encodeSegmentHeader segmentId createdAt).symm, rfl⟩

theorem Headed.mono {bytes longer : Bytes} (headed : Headed bytes) (grows : bytes <+: longer)
    : Headed longer := by
  obtain ⟨more, rfl⟩ := grows
  have long : 4 ≤ bytes.length := Nat.le_trans (by decide) headed.1
  refine ⟨by have := headed.1; simp; omega, ?_⟩
  rw [List.take_append_of_le_length long]
  exact headed.2

variable {path : Path} {world : World}

/-- A missing segment is created with a header. -/
theorem openOrCreateSegment_of_missing
    (absent : world.fs.node path = none) (parent : world.fs.node path.dropLast = some .dir)
    (segmentId : Nat)
    : Meets
        (fun opened next => opened = (world.fs.nextInode, segmentHeaderLen) ∧ world.Lives next
          ∧ ∃ createdAt, world.fs.Created next.fs path (encodeSegmentHeader segmentId createdAt))
        (fun reason next => world.Killed reason
          ∧ (next.fs = world.fs ∨ ∃ written, world.fs.Created next.fs path written))
        (openOrCreateSegment path segmentId world) := by
  have named : path ≠ [] := by
    rintro rfl
    simp [node] at absent
  rw [openOrCreateSegment, get_bind_apply]
  simp only [absent, Option.isSome_none, Bool.not_false, if_true]
  refine Meets.bind ((World.openAppend_of_missing absent parent).imp
    (fun _ _ opened => opened) fun _ _ killed => ⟨killed.1, .inl killed.2⟩) ?_
  intro file middle _ opened
  obtain ⟨rfl, created, lives⟩ := opened
  obtain ⟨createdAt, read⟩ := World.nowSecs_apply middle
  rw [bind_of_ok read]
  refine Meets.bind ((World.append_meets world.fs.nextInode
    (encodeSegmentHeader segmentId createdAt) _).imp (fun _ _ appended => appended) ?_) ?_
  · intro reason next killed
    obtain ⟨dying, written, appended, -⟩ := killed
    rw [created] at appended
    exact ⟨⟨dying.1, fun alive => dying.2 (lives alive)⟩, .inr ⟨written, .of_appended named appended⟩⟩
  · intro _ next _ appended
    rw [created] at appended
    exact ⟨rfl, fun alive => appended.2 (lives alive), _, .of_appended named appended.1⟩

/-- A segment file that starts as one is opened at its end. -/
theorem openOrCreateSegment_of_file {inode : Nat}
    (found : world.fs.inodeAt path = some inode) (segmentId : Nat)
    : openOrCreateSegment path segmentId world
      = if (world.fs.content inode).length < segmentHeaderLen then
          .error (.err (.storage (.corrupt "segment shorter than header"))) world
        else if (world.fs.content inode).take 4 ≠ segmentMagic then
          .error (.err (.storage (.corrupt "invalid segment magic"))) world
        else
          .ok (inode, (world.fs.content inode).length) world := by
  rw [openOrCreateSegment, get_bind_apply]
  simp only [inodeAt_eq_some.mp found, Option.isSome_some, Bool.not_true,
    Bool.false_eq_true, if_false]
  rw [bind_of_ok (World.openAppend_of_file found), get_bind_apply]
  split
  · rfl
  · split <;> rfl

/-- Opening or creating a segment in a directory that exists. A new one is its header. -/
theorem openOrCreateSegment_meets (formed : world.fs.WellFormed)
    (parent : world.fs.node path.dropLast = some .dir) (segmentId : Nat)
    : Meets
        (fun opened next => Grows (fun other => other = path) world.fs next.fs
          ∧ world.Lives next
          ∧ next.fs.inodeAt path = some opened.1
          ∧ opened.2 = (next.fs.content opened.1).length
          ∧ Headed (next.fs.content opened.1)
          ∧ (world.fs.node path = none
            → ∃ createdAt, next.fs.content opened.1 = encodeSegmentHeader segmentId createdAt))
        (fun _ _ => True)
        (openOrCreateSegment path segmentId world) := by
  cases found : world.fs.node path with
  | none =>
    refine (openOrCreateSegment_of_missing found parent segmentId).imp ?_ fun _ _ _ => trivial
    rintro opened next ⟨rfl, lives, createdAt, created⟩
    refine ⟨created.grows formed found, lives, by rw [created.inodeAt, if_pos rfl], ?_, ?_,
      fun _ => ⟨createdAt, created.content_self⟩⟩
    · rw [created.content_self, length_encodeSegmentHeader]
    · rw [created.content_self]
      exact headed_encodeSegmentHeader segmentId createdAt
  | some node =>
    cases node with
    | dir =>
      simp [openOrCreateSegment, World.openAppend, bind_apply, found]
    | file inode =>
      have here := inodeAt_eq_some.mpr found
      rw [openOrCreateSegment_of_file here]
      split
      · trivial
      · split
        · trivial
        · rename_i long magic
          exact ⟨Grows.refl _ _, id, here, rfl,
            ⟨Nat.le_of_not_lt long, not_not.mp magic⟩, fun missing => by simp at missing⟩

theorem digit_isDigit (value : Nat) : (digit value).isDigit = true := by
  have all : ∀ d < 10, (Char.ofNat (48 + d)).isDigit = true := by decide
  exact all (value % 10) (Nat.mod_lt _ (by decide))

theorem digit_toNat (value : Nat) : (digit value).toNat = 48 + value % 10 := by
  have all : ∀ d < 10, (Char.ofNat (48 + d)).toNat = 48 + d := by decide
  exact all (value % 10) (Nat.mod_lt _ (by decide))

theorem digit_ne_plus (value : Nat) : digit value ≠ '+' := by
  intro same
  have code := congrArg Char.toNat same
  rw [digit_toNat, show '+'.toNat = 43 from rfl] at code
  omega

theorem segmentStem_segmentName (segmentId : Nat)
    : segmentStem (segmentName segmentId)
      = some ([segmentId / 100000, segmentId / 10000, segmentId / 1000, segmentId / 100,
          segmentId / 10, segmentId].map digit) := by
  simp [segmentStem, segmentName]

/-- The number of a segment can be read from its file name. -/
theorem parseU16_segmentName {segmentId : Nat} (small : segmentId < 2 ^ 16)
    : (segmentStem (segmentName segmentId)).bind parseU16 = some segmentId := by
  rw [segmentStem_segmentName, Option.bind_some]
  have value : decimalValue ([segmentId / 100000, segmentId / 10000, segmentId / 1000,
      segmentId / 100, segmentId / 10, segmentId].map digit) = segmentId := by
    simp only [decimalValue, List.map_cons, List.map_nil, List.foldl_cons, List.foldl_nil,
      digit_toNat]
    omega
  have unsigned : ([segmentId / 100000, segmentId / 10000, segmentId / 1000,
      segmentId / 100, segmentId / 10, segmentId].map digit).head? ≠ some '+' := by
    simp [digit_ne_plus]
  simp only [parseU16, if_neg unsigned, value]
  simp [digit_isDigit]
  omega

theorem segmentName_injective {first second : Nat} (firstSmall : first < 2 ^ 16)
    (secondSmall : second < 2 ^ 16) (same : segmentName first = segmentName second)
    : first = second := by
  have parsed := parseU16_segmentName firstSmall
  rw [same, parseU16_segmentName secondSmall] at parsed
  exact (Option.some.inj parsed).symm

theorem parseU16_lt {chars : List Char} {value : Nat} (parsed : parseU16 chars = some value)
    : value < 2 ^ 16 := by
  simp only [parseU16, Option.ite_none_right_eq_some, Option.some.injEq] at parsed
  exact parsed.2 ▸ parsed.1.2.2

variable {fs : FileSystem} {repoPath : Path}

/-- The highest segment number is one of a file in the data directory. -/
theorem findLatestSegment_lt
    : (findLatestSegment fs repoPath).getD 0 < 2 ^ 16 := by
  cases latest : findLatestSegment fs repoPath with
  | none => decide
  | some segmentId =>
    obtain ⟨child, -, parsed⟩ := List.mem_filterMap.mp (List.max?_mem latest)
    obtain ⟨stem, -, parsed⟩ := Option.bind_eq_some_iff.mp parsed
    exact parseU16_lt parsed

/-- There is no latest segment in an empty data directory. -/
theorem findLatestSegment_of_empty (formed : fs.WellFormed)
    (empty : ∀ name, fs.node (repoPath ++ ["data", name]) = none)
    : findLatestSegment fs repoPath = none := by
  have none : fs.children (repoPath ++ ["data"]) = [] := by
    refine List.eq_nil_iff_forall_not_mem.mpr ?_
    rintro ⟨name, node⟩ listed
    rw [formed.mem_children, List.append_assoc] at listed
    exact absurd ((empty name).symm.trans listed) (by simp)
  rw [findLatestSegment, none]
  rfl

/-- No segment file has a higher number than the latest. -/
theorem le_findLatestSegment (formed : fs.WellFormed)
    {segmentId : Nat} (small : segmentId < 2 ^ 16) {node : Node}
    (found : fs.node (segmentPathFor repoPath segmentId) = some node)
    : segmentId ≤ (findLatestSegment fs repoPath).getD 0 := by
  have listed : (segmentName segmentId, node) ∈ fs.children (repoPath ++ ["data"]) := by
    rw [formed.mem_children]
    simpa [segmentPathFor] using found
  have member : segmentId ∈ (fs.children (repoPath ++ ["data"])).filterMap fun (name, _) =>
      (segmentStem name).bind parseU16 :=
    List.mem_filterMap.mpr ⟨_, listed, parseU16_segmentName small⟩
  cases latest : findLatestSegment fs repoPath with
  | none =>
    rw [findLatestSegment, List.max?_eq_none_iff] at latest
    rw [latest] at member
    simp at member
  | some highest => exact (List.max?_eq_some_iff.mp latest).2 segmentId member

end Epochs
