import Epochs.Disk.CasStore

/-! When the fields of an open store agree with its files, what the store holds, and the frames
of its operations, also of one in whose middle the process is killed.
-/

namespace Epochs

open Lib

-- Records in bytes

section RecordAt

variable [Blake3]

def recordAt (bytes : Bytes) (entry : IndexEntry) : Option (RecordType × Bytes) :=
  if entry.offset + entry.recordLen ≤ bytes.length then
    match decodeRecord (World.slice bytes entry.offset entry.recordLen) with
    | .ok record => some (record.recordType, record.payload)
    | .error _ => none
  else
    none

variable {bytes : Bytes}

omit [Blake3] in
theorem slice_append {offset length : Nat}
    (inside : offset + length ≤ bytes.length) (more : Bytes)
    : World.slice (bytes ++ more) offset length = World.slice bytes offset length := by
  simp only [World.slice]
  rw [List.drop_append_of_le_length (by omega), List.take_append_of_le_length (by simp; omega)]

variable {entry : IndexEntry}

/-- Bytes added behind a location do not change what is found there. -/
theorem recordAt_of_isPrefix {longer : Bytes}
    (grows : bytes <+: longer) (inside : entry.offset + entry.recordLen ≤ bytes.length)
    : recordAt longer entry = recordAt bytes entry := by
  obtain ⟨more, rfl⟩ := grows
  rw [recordAt, recordAt, if_pos inside, if_pos (by simp; omega), slice_append inside]

/-- There is no record that reaches beyond the bytes. -/
theorem recordAt_of_short
    (short : ¬ entry.offset + entry.recordLen ≤ bytes.length)
    : recordAt bytes entry = none := by
  rw [recordAt, if_neg short]

/-- A record stays where it is when bytes are added behind it. -/
theorem recordAt_mono {longer : Bytes} {record : RecordType × Bytes}
    (grows : bytes <+: longer) (found : recordAt bytes entry = some record)
    : recordAt longer entry = some record := by
  rw [recordAt_of_isPrefix grows, found]
  by_contra short
  simp [recordAt_of_short short] at found

/-- A record written at the end of a segment is found there. -/
theorem recordAt_encodeRecord {payload : Bytes} (fits : payload.length + 45 < 2 ^ 32)
    (recordType : RecordType) (bytes : Bytes) (segmentId : Nat)
    : recordAt (bytes ++ encodeRecord recordType payload (Hash.ofBytes payload))
        { segmentId, offset := bytes.length, recordLen := 45 + payload.length }
      = some (recordType, payload) := by
  have whole : World.slice (bytes ++ encodeRecord recordType payload (Hash.ofBytes payload))
      bytes.length (45 + payload.length)
      = encodeRecord recordType payload (Hash.ofBytes payload) := by
    simp only [World.slice, List.drop_left]
    exact List.take_of_length_le (by simp)
  have decoded := decodeRecord_encodeRecord (by omega : payload.length < 2 ^ 32) recordType []
  rw [List.append_nil] at decoded
  unfold recordAt
  rw [if_pos (by simp), whole, decoded]

end RecordAt

namespace CasDisk

-- The bytes a store stands for

abbrev fs (disk : CasDisk) : FileSystem := disk.world.fs

def indexPath (disk : CasDisk) : Path := disk.cas.repoPath ++ ["index.epi"]

def segmentPath (disk : CasDisk) (segmentId : Nat) : Path :=
  segmentPathFor disk.cas.repoPath segmentId

def indexBytes (disk : CasDisk) : Bytes := disk.fs.content disk.cas.index.file

def segmentBytes (disk : CasDisk) (segmentId : Nat) : Bytes :=
  if segmentId = disk.cas.currentSegmentId then
    disk.fs.content disk.cas.currentFile.file ++ disk.cas.currentFile.buffer
  else
    match disk.fs.inodeAt (disk.segmentPath segmentId) with
    | some inode => disk.fs.content inode
    | none => []

variable {disk before middle after : CasDisk}

theorem segmentPathFor_injective {first second : Nat} (firstSmall : first < 2 ^ 16)
    (secondSmall : second < 2 ^ 16) {repoPath : Path}
    (same : segmentPathFor repoPath first = segmentPathFor repoPath second)
    : first = second := by
  simp only [segmentPathFor, List.append_cancel_left_eq, List.cons.injEq, and_true, true_and]
    at same
  exact segmentName_injective firstSmall secondSmall same

theorem segmentPath_ne_indexPath (disk : CasDisk) (segmentId : Nat)
    : disk.segmentPath segmentId ≠ disk.indexPath := by
  intro same
  have length := congrArg List.length same
  simp [segmentPath, segmentPathFor, indexPath] at length

theorem segmentBytes_current (disk : CasDisk)
    : disk.segmentBytes disk.cas.currentSegmentId
      = disk.fs.content disk.cas.currentFile.file ++ disk.cas.currentFile.buffer := by
  rw [segmentBytes, if_pos rfl]

variable {segmentId inode : Nat}

theorem segmentBytes_of_file
    (other : segmentId ≠ disk.cas.currentSegmentId)
    (found : disk.fs.inodeAt (disk.segmentPath segmentId) = some inode)
    : disk.segmentBytes segmentId = disk.fs.content inode := by
  rw [segmentBytes, if_neg other, found]

theorem segmentBytes_of_none
    (other : segmentId ≠ disk.cas.currentSegmentId)
    (absent : disk.fs.inodeAt (disk.segmentPath segmentId) = none)
    : disk.segmentBytes segmentId = [] := by
  rw [segmentBytes, if_neg other, absent]

/-- A segment that is active neither before nor after keeps its bytes when its file does. -/
theorem segmentBytes_of_ne
    (repoPath : after.cas.repoPath = before.cas.repoPath)
    (segments : after.fs.inodeAt (before.segmentPath segmentId)
      = before.fs.inodeAt (before.segmentPath segmentId))
    (contents : ∀ inode, before.fs.inodeAt (before.segmentPath segmentId) = some inode
      → after.fs.content inode = before.fs.content inode)
    (otherBefore : segmentId ≠ before.cas.currentSegmentId)
    (otherAfter : segmentId ≠ after.cas.currentSegmentId)
    : after.segmentBytes segmentId = before.segmentBytes segmentId := by
  have samePath : after.segmentPath segmentId = before.segmentPath segmentId := by
    rw [segmentPath, segmentPath, repoPath]
  rw [segmentBytes, segmentBytes, if_neg otherBefore, if_neg otherAfter, samePath, segments]
  cases found : before.fs.inodeAt (before.segmentPath segmentId) with
  | none => rfl
  | some inode => exact contents inode found

-- Agreement with the files

/-- The fields of the store agree with its files. -/
structure Attached (disk : CasDisk) : Prop where
  formed : disk.fs.WellFormed
  data : disk.fs.node (disk.cas.repoPath ++ ["data"]) = some .dir
  indexed : disk.fs.inodeAt disk.indexPath = some disk.cas.index.file
  active : disk.fs.inodeAt (disk.segmentPath disk.cas.currentSegmentId)
    = some disk.cas.currentFile.file
  offset : disk.cas.currentOffset = (disk.segmentBytes disk.cas.currentSegmentId).length
  bounded : disk.cas.currentSegmentId < 2 ^ 16
  unused : ∀ segmentId, disk.cas.currentSegmentId < segmentId → segmentId < 2 ^ 16
    → disk.fs.node (disk.segmentPath segmentId) = none
  located : ∀ hash entry, disk.cas.index.find hash = some entry → entry.segmentId < 2 ^ 16
  mapped : ∀ segmentId map, AssocMap.lookup segmentId disk.cas.segmentMaps = some map
    → segmentId < 2 ^ 16 ∧ segmentId ≠ disk.cas.currentSegmentId
      ∧ disk.fs.inodeAt (disk.segmentPath segmentId) = some map.file
      ∧ map.length ≤ (disk.fs.content map.file).length

namespace Attached

/-- No other segment shares the file of the active one. -/
theorem ne_active (attached : disk.Attached)
    (small : segmentId < 2 ^ 16) (other : segmentId ≠ disk.cas.currentSegmentId)
    (found : disk.fs.inodeAt (disk.segmentPath segmentId) = some inode)
    : inode ≠ disk.cas.currentFile.file := by
  rintro rfl
  exact other (segmentPathFor_injective small attached.bounded
    (attached.formed.unshared _ _ _ found attached.active))

/-- No segment shares the file of the index. -/
theorem ne_index (attached : disk.Attached)
    (found : disk.fs.inodeAt (disk.segmentPath segmentId) = some inode)
    : inode ≠ disk.cas.index.file := by
  rintro rfl
  exact segmentPath_ne_indexPath disk segmentId
    (attached.formed.unshared _ _ _ found attached.indexed)

/-- The file of a segment holds a first part of its bytes, all of them unless some are in the
write buffer.
-/
theorem content_prefix (attached : disk.Attached)
    (found : disk.fs.inodeAt (disk.segmentPath segmentId) = some inode)
    : disk.fs.content inode <+: disk.segmentBytes segmentId := by
  by_cases same : segmentId = disk.cas.currentSegmentId
  · subst same
    obtain rfl : disk.cas.currentFile.file = inode :=
      Option.some.inj (attached.active.symm.trans found)
    rw [segmentBytes_current]
    exact List.prefix_append _ _
  · exact segmentBytes_of_file same found ▸ List.prefix_rfl

/-- Writing to the active segment, into its file and its buffer, adds to its bytes only. The
index may be written too.
-/
theorem segmentBytes_written (attached : before.Attached) {written : FileSystem}
    {flushed bytes entry : Bytes}
    (repoPath : after.cas.repoPath = before.cas.repoPath)
    (current : after.cas.currentSegmentId = before.cas.currentSegmentId)
    (file : after.cas.currentFile.file = before.cas.currentFile.file)
    (appended : before.fs.Appended written before.cas.currentFile.file flushed)
    (left : flushed ++ after.cas.currentFile.buffer = before.cas.currentFile.buffer ++ bytes)
    (entered : written.Appended after.fs before.cas.index.file entry)
    (segmentId : Nat) (small : segmentId < 2 ^ 16)
    : after.segmentBytes segmentId
      = if segmentId = before.cas.currentSegmentId then before.segmentBytes segmentId ++ bytes
        else before.segmentBytes segmentId := by
  split
  · rename_i same
    subst same
    rw [segmentBytes_current, ← current, segmentBytes_current, file,
      entered.content_of_ne (attached.ne_index attached.active), appended.content_self,
      List.append_assoc, left, List.append_assoc]
  · rename_i other
    refine segmentBytes_of_ne repoPath
      ((entered.inodeAt _).trans (appended.inodeAt _)) ?_ other (current ▸ other)
    intro inode found
    rw [entered.content_of_ne (attached.ne_index found),
      appended.content_of_ne (attached.ne_active small other found)]

end Attached

-- Frames

/-- A step that moves bytes from the buffer to the file, or reads: the same files with the same
bytes, and the same objects.
-/
structure Keeps (before after : CasDisk) : Prop where
  repoPath : after.cas.repoPath = before.cas.repoPath
  index : after.cas.index = before.cas.index
  writeCache : after.cas.writeCache = before.cas.writeCache
  current : after.cas.currentSegmentId = before.cas.currentSegmentId
  node : ∀ path, after.fs.node path = before.fs.node path
  indexBytes : after.indexBytes = before.indexBytes
  segmentBytes : ∀ segmentId < 2 ^ 16, after.segmentBytes segmentId = before.segmentBytes segmentId
  lives : before.world.Lives after.world

/-- The segment became active between the two states. -/
def Between (before after : CasDisk) (segmentId : Nat) : Prop :=
  before.cas.currentSegmentId < segmentId ∧ segmentId ≤ after.cas.currentSegmentId

/-- A segment that was not started in between is one of those before. -/
theorem le_of_not_between (atMost : segmentId ≤ after.cas.currentSegmentId)
    (outside : ¬ Between before after segmentId)
    : segmentId ≤ before.cas.currentSegmentId := by
  simp only [Between] at outside
  omega

/-- What a segment holds after the first state and before any record is written: a header if
it is new, else what it held.
-/
def Begins (before after : CasDisk) (segmentId : Nat) (bytes : Bytes) : Prop :=
  (Between before after segmentId
    → ∃ createdAt, bytes = encodeSegmentHeader segmentId createdAt)
  ∧ (¬ Between before after segmentId → bytes = before.segmentBytes segmentId)

/-- A step that may start new segments, and writes no record. -/
structure Prepares (before after : CasDisk) : Prop where
  repoPath : after.cas.repoPath = before.cas.repoPath
  index : after.cas.index = before.cas.index
  writeCache : after.cas.writeCache = before.cas.writeCache
  current : before.cas.currentSegmentId ≤ after.cas.currentSegmentId
  kept : ∀ path node, before.fs.node path = some node → after.fs.node path = some node
  created : ∀ path node, after.fs.node path = some node
    → before.fs.node path = some node
      ∨ ∃ segmentId ≤ after.cas.currentSegmentId, path = after.segmentPath segmentId
  indexBytes : after.indexBytes = before.indexBytes
  segmentBytes : ∀ segmentId < 2 ^ 16,
    before.segmentBytes segmentId <+: after.segmentBytes segmentId
  begins : ∀ segmentId < 2 ^ 16, Begins before after segmentId (after.segmentBytes segmentId)
  headed : Headed (before.segmentBytes before.cas.currentSegmentId)
    → Headed (after.segmentBytes after.cas.currentSegmentId)
  lives : before.world.Lives after.world

/-- What a kill leaves of the files: a whole number of index entries more, and possibly a part
of one, and of each segment a first part of bytes that extend what the store stood for.
-/
structure Cut (before : CasDisk) (fs : FileSystem) : Prop where
  formed : fs.WellFormed
  kept : ∀ path inode, before.fs.inodeAt path = some inode → fs.inodeAt path = some inode
  torn : ∃ torn, torn.length < indexEntryLen
    ∧ fs.content before.cas.index.file = before.indexBytes ++ torn
  segments : ∃ ideal : Nat → Bytes,
    (∀ segmentId < 2 ^ 16, before.segmentBytes segmentId <+: ideal segmentId)
    ∧ ∀ segmentId < 2 ^ 16, ∀ inode, fs.inodeAt (before.segmentPath segmentId) = some inode
      → fs.content inode <+: ideal segmentId

def Halts (before : CasDisk) (reason : Fault EpochsError) (after : CasDisk) : Prop :=
  before.world.Killed reason ∧ before.Cut after.fs

theorem Keeps.prepares (keeps : Keeps before after) (bounded : before.cas.currentSegmentId < 2 ^ 16)
    : Prepares before after where
  repoPath := keeps.repoPath
  index := keeps.index
  writeCache := keeps.writeCache
  current := Nat.le_of_eq keeps.current.symm
  kept path node found := by rw [keeps.node, found]
  created path node found := .inl (by rw [← keeps.node, found])
  indexBytes := keeps.indexBytes
  segmentBytes segmentId small := keeps.segmentBytes segmentId small ▸ List.prefix_rfl
  begins segmentId small := by
    refine ⟨fun between => ?_, fun _ => keeps.segmentBytes segmentId small⟩
    obtain ⟨later, atMost⟩ := between
    rw [keeps.current] at atMost
    omega
  headed headed := by rwa [keeps.current, keeps.segmentBytes _ bounded]
  lives := keeps.lives

theorem Begins.trans {bytes : Bytes}
    (first : Begins before middle segmentId (middle.segmentBytes segmentId))
    (lower : before.cas.currentSegmentId ≤ middle.cas.currentSegmentId)
    (upper : middle.cas.currentSegmentId ≤ after.cas.currentSegmentId)
    (second : Begins middle after segmentId bytes)
    : Begins before after segmentId bytes := by
  by_cases late : Between middle after segmentId
  · have between : Between before after segmentId := ⟨Nat.lt_of_le_of_lt lower late.1, late.2⟩
    exact ⟨fun _ => second.1 late, fun outside => absurd between outside⟩
  · rw [second.2 late]
    have same : Between before after segmentId ↔ Between before middle segmentId := by
      simp only [Between] at late ⊢
      omega
    simpa only [Begins, same] using first

theorem Prepares.trans (first : Prepares before middle) (second : Prepares middle after)
    : Prepares before after where
  repoPath := second.repoPath.trans first.repoPath
  index := second.index.trans first.index
  writeCache := second.writeCache.trans first.writeCache
  current := Nat.le_trans first.current second.current
  kept path node found := second.kept path node (first.kept path node found)
  created path node found := by
    rcases second.created path node found with earlier | started
    · rcases first.created path node earlier with original | ⟨segmentId, atMost, rfl⟩
      · exact .inl original
      · refine .inr ⟨segmentId, Nat.le_trans atMost second.current, ?_⟩
        rw [segmentPath, segmentPath, second.repoPath]
    · exact .inr started
  indexBytes := second.indexBytes.trans first.indexBytes
  segmentBytes segmentId small :=
    (first.segmentBytes segmentId small).trans (second.segmentBytes segmentId small)
  begins segmentId small :=
    (first.begins segmentId small).trans first.current second.current
      (second.begins segmentId small)
  headed headed := second.headed (first.headed headed)
  lives alive := second.lives (first.lives alive)

theorem Keeps.refl (disk : CasDisk) : Keeps disk disk :=
  ⟨rfl, rfl, rfl, rfl, fun _ => rfl, rfl, fun _ _ => rfl, id⟩

theorem Keeps.trans (first : Keeps before middle) (second : Keeps middle after)
    : Keeps before after where
  repoPath := second.repoPath.trans first.repoPath
  index := second.index.trans first.index
  writeCache := second.writeCache.trans first.writeCache
  current := second.current.trans first.current
  node path := (second.node path).trans (first.node path)
  indexBytes := second.indexBytes.trans first.indexBytes
  segmentBytes segmentId small :=
    (second.segmentBytes segmentId small).trans (first.segmentBytes segmentId small)
  lives alive := second.lives (first.lives alive)

theorem Keeps.inodeAt (keeps : Keeps before after) (path : Path)
    : after.fs.inodeAt path = before.fs.inodeAt path := by
  simp only [FileSystem.inodeAt, keeps.node]

theorem Keeps.segmentPath (keeps : Keeps before after) (segmentId : Nat)
    : after.segmentPath segmentId = before.segmentPath segmentId := by
  rw [CasDisk.segmentPath, CasDisk.segmentPath, keeps.repoPath]

/-- A step that keeps the bytes keeps the agreement with the files, if it leaves the number of
the open file and the length alone and its maps are right.
-/
theorem Keeps.attached (keeps : Keeps before after) (attached : before.Attached)
    (formed : after.fs.WellFormed)
    (file : after.cas.currentFile.file = before.cas.currentFile.file)
    (offset : after.cas.currentOffset = before.cas.currentOffset)
    (mapped : ∀ segmentId map, AssocMap.lookup segmentId after.cas.segmentMaps = some map
      → segmentId < 2 ^ 16 ∧ segmentId ≠ before.cas.currentSegmentId
        ∧ before.fs.inodeAt (before.segmentPath segmentId) = some map.file
        ∧ map.length ≤ (after.fs.content map.file).length)
    : after.Attached where
  formed := formed
  data := by rw [keeps.node, keeps.repoPath, attached.data]
  indexed := by
    rw [keeps.inodeAt, indexPath, keeps.repoPath, keeps.index]
    exact attached.indexed
  active := by rw [keeps.inodeAt, keeps.segmentPath, keeps.current, file, attached.active]
  offset := by
    rw [offset, keeps.current, keeps.segmentBytes _ attached.bounded, attached.offset]
  bounded := keeps.current ▸ attached.bounded
  unused segmentId later small := by
    rw [keeps.node, keeps.segmentPath]
    exact attached.unused segmentId (keeps.current ▸ later) small
  located hash entry found := attached.located hash entry (keeps.index ▸ found)
  mapped segmentId map found := by
    rw [keeps.inodeAt, keeps.segmentPath, keeps.current]
    exact mapped segmentId map found

variable {fs : FileSystem}

theorem Prepares.cut (prepares : Prepares before middle) (cut : middle.Cut fs)
    : before.Cut fs where
  formed := cut.formed
  kept path inode found := cut.kept path inode
    (FileSystem.inodeAt_eq_some.mpr (prepares.kept path _ (FileSystem.inodeAt_eq_some.mp found)))
  torn := by
    obtain ⟨torn, short, content⟩ := cut.torn
    rw [prepares.index, prepares.indexBytes] at content
    exact ⟨torn, short, content⟩
  segments := by
    obtain ⟨ideal, extends_, parts⟩ := cut.segments
    refine ⟨ideal, fun segmentId small => (prepares.segmentBytes segmentId small).trans
      (extends_ segmentId small), fun segmentId small inode found => parts segmentId small inode ?_⟩
    rwa [segmentPath, prepares.repoPath]

theorem Prepares.halts (prepares : Prepares before middle) {reason : Fault EpochsError}
    (halts : middle.Halts reason after)
    : before.Halts reason after :=
  ⟨⟨halts.1.1, fun alive => halts.1.2 (prepares.lives alive)⟩, prepares.cut halts.2⟩

/-- A kill while bytes are written to the active segment, or to the index after them. -/
theorem Attached.cut_of_written (attached : disk.Attached) {written : FileSystem}
    {flushed bytes torn : Bytes}
    (appended : disk.fs.Appended written disk.cas.currentFile.file flushed)
    (part : flushed <+: disk.cas.currentFile.buffer ++ bytes)
    (entered : written.Appended fs disk.cas.index.file torn) (short : torn.length < indexEntryLen)
    : disk.Cut fs where
  formed := entered.wellFormed (appended.wellFormed attached.formed)
  kept path inode found := by rw [entered.inodeAt, appended.inodeAt, found]
  torn := by
    refine ⟨torn, short, ?_⟩
    rw [entered.content_self, appended.content_of_ne (attached.ne_index attached.active).symm]
    rfl
  segments := by
    refine ⟨fun segmentId => disk.segmentBytes segmentId ++ bytes,
      fun segmentId _ => List.prefix_append _ _, fun segmentId small inode found => ?_⟩
    rw [entered.inodeAt, appended.inodeAt] at found
    rw [entered.content_of_ne (attached.ne_index found)]
    by_cases same : segmentId = disk.cas.currentSegmentId
    · subst same
      obtain rfl : disk.cas.currentFile.file = inode :=
        Option.some.inj (attached.active.symm.trans found)
      dsimp only
      rw [appended.content_self, segmentBytes_current, List.append_assoc]
      exact (List.prefix_append_right_inj _).mpr part
    · rw [appended.content_of_ne (attached.ne_active small same found)]
      exact (attached.content_prefix found).trans (List.prefix_append _ _)

theorem Attached.cut_of_appended (attached : disk.Attached)
    {flushed bytes : Bytes}
    (appended : disk.fs.Appended fs disk.cas.currentFile.file flushed)
    (part : flushed <+: disk.cas.currentFile.buffer ++ bytes)
    : disk.Cut fs :=
  attached.cut_of_written appended part (FileSystem.Appended.refl _ _) (by decide)

/-- A kill between two operations loses the buffer. -/
theorem Attached.cut_self (attached : disk.Attached) : disk.Cut disk.fs where
  formed := attached.formed
  kept _ _ found := found
  torn := ⟨[], by decide, (List.append_nil _).symm⟩
  segments := ⟨disk.segmentBytes, fun _ _ => List.prefix_rfl,
    fun _ _ _ found => attached.content_prefix found⟩

end CasDisk
end Epochs
