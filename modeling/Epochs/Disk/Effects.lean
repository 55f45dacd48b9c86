import Epochs.Disk.Reads
import Mathlib.Logic.Relation

/-! What the operations of the store do to its fields and to the files, step by step and in
whatever state they start: each of them only adds bytes to an open file, or opens or creates a
file of its own.
-/

namespace Epochs

open Lib Run

-- Numbers of files

namespace World

def Numbers (before after : World) : Prop := before.fs.Numbers after.fs

theorem numbers_frame : Frame Numbers where
  refl world := FileSystem.Numbers.frame.refl world.fs
  trans := FileSystem.Numbers.frame.trans

theorem change_numbers {update : FileSystem → FileSystem} {world : World}
    (numbers : world.fs.Numbers (update world.fs))
    : Numbers world (stateOf (change update world)) := by
  have meets := change_meets update world
  cases ran : change update world with
  | ok value next =>
    rw [ran] at meets
    rw [stateOf_ok, Numbers, meets.1]
    exact numbers
  | error reason next =>
    rw [ran] at meets
    rw [stateOf_error, Numbers, meets.2]
    exact FileSystem.Numbers.frame.refl _

theorem append_numbers (inode : Nat) (bytes : Bytes)
    : Within Numbers (append inode bytes) := by
  intro world
  have meets := append_meets inode bytes world
  cases ran : append inode bytes world with
  | ok value next =>
    rw [ran] at meets
    exact FileSystem.Numbers.of_appended meets.1
  | error reason next =>
    rw [ran] at meets
    obtain ⟨-, written, appended, -⟩ := meets
    exact FileSystem.Numbers.of_appended appended

theorem openAppend_numbers (path : Path) : Within Numbers (openAppend path) := by
  refine .get_bind fun world => ?_
  cases found : world.fs.node path with
  | some kind => cases kind <;> exact numbers_frame.refl world
  | none =>
    dsimp only
    cases world.fs.node path.dropLast with
    | none => exact numbers_frame.refl world
    | some kind =>
      cases kind with
      | file inode => exact numbers_frame.refl world
      | dir =>
        have numbers := @change_numbers (fun fs => fs.create path) world (.of_create found)
        dsimp only
        rw [bind_apply]
        cases ran : change (fun fs => fs.create path) world with
        | ok value next =>
          rw [ran] at numbers
          exact numbers
        | error reason next =>
          rw [ran] at numbers
          exact numbers

end World

namespace CasDisk

theorem openOrCreateSegment_numbers (path : Path) (segmentId : Nat)
    : Within World.Numbers (openOrCreateSegment path segmentId) := by
  have frame := World.numbers_frame
  refine .bind frame (.get frame) fun world =>
    .bind frame (World.openAppend_numbers path) fun file => ?_
  split
  · refine .bind frame (fun world => frame.refl world) fun createdAt => ?_
    exact .bind frame (World.append_numbers _ _) fun _ => .pure frame _
  · refine .bind frame (.get frame) fun world => ?_
    dsimp only
    split
    · exact .throw frame _
    · split
      · exact .throw frame _
      · exact .pure frame _

/-- Opening or creating a file changes nothing, or creates it. -/
theorem openOrCreateSegment_cases (path : Path) (segmentId : Nat) (world : World)
    : Meets
        (fun opened next => (next.fs = world.fs ∧ world.fs.inodeAt path = some opened.1)
          ∨ (opened.1 = world.fs.nextInode ∧ world.fs.node path = none
            ∧ ∃ written, world.fs.Created next.fs path written))
        (fun _ next => next.fs = world.fs
          ∨ (world.fs.node path = none ∧ ∃ written, world.fs.Created next.fs path written))
        (openOrCreateSegment path segmentId world) := by
  cases found : world.fs.node path with
  | none =>
    cases parent : world.fs.node path.dropLast with
    | none => simp [openOrCreateSegment, World.openAppend, bind_apply, found, parent]
    | some kind =>
      cases kind with
      | file inode =>
        simp [openOrCreateSegment, World.openAppend, bind_apply, found, parent]
      | dir =>
        refine (openOrCreateSegment_of_missing found parent segmentId).imp ?_ ?_
        · rintro opened next ⟨rfl, -, createdAt, created⟩
          exact .inr ⟨rfl, rfl, _, created⟩
        · rintro reason next ⟨-, same | created⟩
          · exact .inl same
          · exact .inr ⟨rfl, created⟩
  | some kind =>
    cases kind with
    | dir => simp [openOrCreateSegment, World.openAppend, bind_apply, found]
    | file inode =>
      have here := FileSystem.inodeAt_eq_some.mpr found
      rw [openOrCreateSegment_of_file here]
      split
      · exact .inl rfl
      · split
        · exact .inl rfl
        · exact .inl ⟨rfl, here⟩

-- Effects

/-- A path of the store: its index file, or something in its data directory. -/
def Owned (repoPath path : Path) : Prop :=
  path = repoPath ++ ["index.epi"] ∨ repoPath ++ ["data"] <+: path

theorem owned_segmentPathFor (repoPath : Path) (segmentId : Nat)
    : Owned repoPath (segmentPathFor repoPath segmentId) :=
  .inr ⟨[segmentName segmentId], by simp [segmentPathFor]⟩

/-- What one step of an operation does: nothing to a file, bytes added to one of the two open
files, or a file of the store opened or created.
-/
inductive Effect (before after : CasDisk) : Prop where
  | quiet (repoPath : after.cas.repoPath = before.cas.repoPath)
      (index : after.cas.index = before.cas.index)
      (current : after.cas.currentFile.file = before.cas.currentFile.file)
      (fs : after.fs = before.fs)
  | wrote {bytes : Bytes} (repoPath : after.cas.repoPath = before.cas.repoPath)
      (index : after.cas.index = before.cas.index)
      (current : after.cas.currentFile.file = before.cas.currentFile.file)
      (appended : before.fs.Appended after.fs before.cas.currentFile.file bytes)
  | entered {bytes : Bytes} (repoPath : after.cas.repoPath = before.cas.repoPath)
      (file : after.cas.index.file = before.cas.index.file)
      (found : ∀ hash entry, before.cas.index.find hash = some entry
        → after.cas.index.find hash = some entry)
      (current : after.cas.currentFile.file = before.cas.currentFile.file)
      (appended : before.fs.Appended after.fs before.cas.index.file bytes)
  | opened {path : Path} (owned : Owned before.cas.repoPath path)
      (repoPath : after.cas.repoPath = before.cas.repoPath)
      (index : after.cas.index = before.cas.index)
      (fs : after.fs = before.fs)
      (found : before.fs.inodeAt path = some after.cas.currentFile.file)
  | created {path : Path} {bytes : Bytes} (owned : Owned before.cas.repoPath path)
      (repoPath : after.cas.repoPath = before.cas.repoPath)
      (index : after.cas.index = before.cas.index)
      (numbers : before.fs.Numbers after.fs)
      (free : before.fs.node path = none)
      (created : before.fs.Created after.fs path bytes)
      (current : after.cas.currentFile.file = before.cas.currentFile.file
        ∨ after.cas.currentFile.file = before.fs.nextInode)

def Effects : CasDisk → CasDisk → Prop := Relation.ReflTransGen Effect

theorem effects_frame : Frame Effects := ⟨fun _ => .refl, .trans⟩

/-- A relation that composes and holds of every step holds of an operation. -/
theorem Effects.lift {relation : CasDisk → CasDisk → Prop} (frame : Frame relation)
    (each : ∀ {before after}, Effect before after → relation before after)
    {before after : CasDisk} (effects : Effects before after)
    : relation before after := by
  induction effects with
  | refl => exact frame.refl before
  | tail _ effect ih => exact frame.trans ih (each effect)

-- Operations

theorem update_effects {change : CasStore → CasStore}
    (repoPath : ∀ cas, (change cas).repoPath = cas.repoPath)
    (index : ∀ cas, (change cas).index = cas.index)
    (current : ∀ cas, (change cas).currentFile.file = cas.currentFile.file)
    : Within Effects (update change) :=
  fun disk => .single (.quiet (repoPath disk.cas) (index disk.cas) (current disk.cas) rfl)

theorem flushWriter_effects : Within Effects flushWriter := by
  intro disk
  have meets := BufWriter.flush_meets disk.cas.currentFile disk.world
  rw [flushWriter, get_bind_apply]
  rw [bind_apply, onWorld, zoom]
  cases ran : disk.cas.currentFile.flush disk.world with
  | ok writer world =>
    rw [ran] at meets
    obtain ⟨rfl, appended, -⟩ := meets
    exact .single (.wrote rfl rfl rfl appended)
  | error reason world =>
    rw [ran] at meets
    obtain ⟨-, flushed, appended, -⟩ := meets
    exact .single (.wrote rfl rfl rfl appended)

theorem flush_effects : Within Effects flush := by
  refine .bind effects_frame flushWriter_effects fun _ => ?_
  refine .get_bind fun disk => ?_
  split
  · exact effects_frame.refl disk
  · exact .single (.quiet rfl rfl rfl rfl)

theorem rotateSegment_effects : Within Effects rotateSegment := by
  refine .bind effects_frame flush_effects fun _ => .get_bind fun disk => ?_
  dsimp only
  split
  · exact effects_frame.refl disk
  · rw [bind_of_ok (update_apply _ disk), bind_apply, onWorld, zoom]
    have meets := openOrCreateSegment_cases
      (segmentPathFor disk.cas.repoPath (disk.cas.currentSegmentId + 1))
      (disk.cas.currentSegmentId + 1) disk.world
    have numbers := openOrCreateSegment_numbers
      (segmentPathFor disk.cas.repoPath (disk.cas.currentSegmentId + 1))
      (disk.cas.currentSegmentId + 1) disk.world
    have owned := owned_segmentPathFor disk.cas.repoPath (disk.cas.currentSegmentId + 1)
    dsimp only
    cases ran : openOrCreateSegment
        (segmentPathFor disk.cas.repoPath (disk.cas.currentSegmentId + 1))
        (disk.cas.currentSegmentId + 1) disk.world with
    | ok opened world =>
      rw [ran] at meets numbers
      rcases meets with ⟨same, found⟩ | ⟨new, free, written, created⟩
      · exact .single (.opened owned rfl rfl same found)
      · exact .single (.created owned rfl rfl numbers free created (.inr new))
    | error reason world =>
      rw [ran] at meets numbers
      rcases meets with same | ⟨free, written, created⟩
      · exact .single (.quiet rfl rfl rfl same)
      · exact .single (.created owned rfl rfl numbers free created (.inl rfl))

theorem ensureSegmentCapacity_effects (needed : Nat)
    : Within Effects (ensureSegmentCapacity needed) := by
  refine .get_bind fun disk => ?_
  split
  · exact rotateSegment_effects disk
  · exact effects_frame.refl disk

theorem insert_cases (index : Index) (hash : Hash) (entry : IndexEntry) (world : World)
    : Meets
        (fun after next => after.file = index.file
          ∧ (∀ other found, index.find other = some found → after.find other = some found)
          ∧ ∃ bytes, world.fs.Appended next.fs index.file bytes)
        (fun _ next => ∃ bytes, world.fs.Appended next.fs index.file bytes)
        (index.insert hash entry world) := by
  cases present : index.contains hash with
  | true =>
    simp only [Index.insert, present, if_true]
    exact ⟨rfl, fun _ _ found => found, [], .refl _ _⟩
  | false =>
    refine (index.insert_meets present entry world).imp ?_ ?_
    · rintro after next ⟨rfl, appended, -⟩
      refine ⟨rfl, fun other found here => ?_, _, appended⟩
      have different : hash ≠ other := by
        rintro rfl
        rw [Index.contains_eq_false.mp present] at here
        cases here
      exact (AssocMap.lookup_insert_of_ne different _ _).trans here
    · rintro reason next ⟨-, torn, appended, -⟩
      exact ⟨torn, appended⟩

/-- Operations of the world that change no file. -/
theorem onWorld_effects {α : Type} {run : Run EpochsError World α}
    (reads : Within (fun before after : World => after.fs = before.fs) run)
    : Within Effects (onWorld run) :=
  .zoom reads fun _ _ same => .single (.quiet rfl rfl rfl same)

theorem openRead_same (path : Path)
    : Within (fun before after : World => after.fs = before.fs) (World.openRead path) := by
  refine .get_bind fun world => ?_
  cases world.fs.node path with
  | none => rfl
  | some kind => cases kind <;> rfl

theorem readExact_same (inode offset length : Nat)
    : Within (fun before after : World => after.fs = before.fs)
        (World.readExact inode offset length) := by
  intro world
  rw [World.readExact_apply]
  split <;> rfl

theorem readFile_effects (entry : IndexEntry) : Within Effects (readFile entry) :=
  .bind effects_frame (.get effects_frame) fun _ =>
    .bind effects_frame (onWorld_effects (openRead_same _)) fun _ =>
      onWorld_effects (readExact_same _ _ _)

theorem ensureMmap_effects (segmentId : Nat) : Within Effects (ensureMmap segmentId) := by
  refine .bind effects_frame (.get effects_frame) fun disk => ?_
  dsimp only
  split
  · exact .throw effects_frame _
  · split
    · exact .pure effects_frame _
    · refine .bind effects_frame (onWorld_effects (openRead_same _)) fun file =>
        .bind effects_frame (.get effects_frame) fun disk => ?_
      exact .bind effects_frame (update_effects (fun _ => rfl) (fun _ => rfl) fun _ => rfl)
        fun _ => .pure effects_frame _

theorem readSealed_effects (entry : IndexEntry) : Within Effects (readSealed entry) := by
  refine .bind effects_frame (ensureMmap_effects _).observe fun found => ?_
  cases found with
  | error error => exact readFile_effects entry
  | ok map =>
    dsimp only
    split
    · refine .bind effects_frame (.get effects_frame) fun disk => ?_
      dsimp only
      split
      · exact .pure effects_frame _
      · exact .throw effects_frame _
    · exact readFile_effects entry

theorem readRecordBytes_effects (entry : IndexEntry)
    : Within Effects (readRecordBytes entry) := by
  refine .bind effects_frame (.bind effects_frame (.get effects_frame) fun disk => ?_) fun _ =>
    .bind effects_frame (.get effects_frame) fun disk => ?_
  · split
    · exact flushWriter_effects
    · exact .pure effects_frame _
  · dsimp only
    split
    · exact readSealed_effects entry
    · exact readFile_effects entry

section Blake3

variable [Blake3]

theorem writeRecord_effects (recordType : RecordType) (payload : Bytes)
    : Within Effects (writeRecord recordType payload) := by
  refine .get_bind fun disk => ?_
  have writes := BufWriter.writeAll_meets disk.cas.currentFile
    (encodeRecord recordType payload (Hash.ofBytes payload)) disk.world
  rw [bind_apply, onWorld, zoom]
  cases ran : disk.cas.currentFile.writeAll
      (encodeRecord recordType payload (Hash.ofBytes payload)) disk.world with
  | error reason world =>
    rw [ran] at writes
    obtain ⟨-, flushed, appended, -⟩ := writes
    exact .single (.wrote rfl rfl rfl appended)
  | ok writer world =>
    rw [ran] at writes
    obtain ⟨file, -, flushed, appended, -⟩ := writes
    have first : Effects disk { world, cas := { disk.cas with currentFile := writer } } :=
      .single (.wrote rfl rfl file appended)
    refine effects_frame.trans first ?_
    dsimp only
    rw [bind_of_ok (update_apply _ _), bind_apply, onWorld, zoom]
    have enters := insert_cases disk.cas.index (Hash.ofBytes payload)
      { segmentId := disk.cas.currentSegmentId, offset := disk.cas.currentOffset
        recordLen := (encodeRecord recordType payload (Hash.ofBytes payload)).length % 2 ^ 32 }
      world
    dsimp only
    cases entered : disk.cas.index.insert (Hash.ofBytes payload)
        { segmentId := disk.cas.currentSegmentId, offset := disk.cas.currentOffset
          recordLen := (encodeRecord recordType payload (Hash.ofBytes payload)).length % 2 ^ 32 }
        world with
    | ok index next =>
      rw [entered] at enters
      obtain ⟨same, kept, bytes, more⟩ := enters
      exact .single (.entered rfl same kept rfl more)
    | error reason next =>
      rw [entered] at enters
      obtain ⟨bytes, more⟩ := enters
      exact .single (.entered rfl rfl (fun _ _ found => found) rfl more)

theorem put_effects (recordType : RecordType) (payload : Bytes)
    : Within Effects (put recordType payload) := by
  refine .get_bind fun disk => ?_
  split
  · exact effects_frame.refl disk
  · exact (Within.bind effects_frame (ensureSegmentCapacity_effects _) fun _ =>
      .bind effects_frame (writeRecord_effects _ _) fun _ => .pure effects_frame _) disk

theorem getPayload_effects (hash : Hash) : Within Effects (getPayload hash) := by
  refine .bind effects_frame (.get effects_frame) fun disk => ?_
  dsimp only
  split
  · exact .pure effects_frame _
  · split
    · exact .throw effects_frame _
    · refine .bind effects_frame (readRecordBytes_effects _) fun recordBuf =>
        .bind effects_frame (.ofExcept effects_frame _) fun record => ?_
      exact .bind effects_frame (update_effects (fun _ => rfl) (fun _ => rfl) fun _ => rfl)
        fun _ => .pure effects_frame _

end Blake3
end CasDisk
end Epochs
