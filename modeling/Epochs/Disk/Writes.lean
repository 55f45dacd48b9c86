import Epochs.Disk.Consistent

/-! What the writing operations do to the bytes of a store that agrees with its files. -/

namespace Epochs

open Lib Run

namespace CasDisk

variable {disk : CasDisk}

-- Flushing

theorem flushWriter_meets (attached : disk.Attached)
    : Meets
        (fun _ next => next.Attached ∧ Keeps disk next ∧ next.cas.currentFile.buffer = [])
        disk.Halts
        (flushWriter disk) := by
  rw [flushWriter, get_bind_apply]
  refine onWorld_bind (BufWriter.flush_meets disk.cas.currentFile disk.world) ?_ ?_
  · rintro reason world ⟨killed, flushed, appended, part⟩
    exact ⟨killed, attached.cut_of_appended appended
      (part.trans (List.prefix_append _ ([] : Bytes)))⟩
  · rintro writer world ⟨rfl, appended, lives⟩
    have bytes := @Attached.segmentBytes_written disk
      { world, cas := { disk.cas with currentFile := ⟨disk.cas.currentFile.file, []⟩ } } attached
      _ _ [] [] rfl rfl rfl appended rfl (FileSystem.Appended.refl _ _)
    have keeps : Keeps disk
        { world, cas := { disk.cas with currentFile := ⟨disk.cas.currentFile.file, []⟩ } } :=
      { repoPath := rfl
        index := rfl
        writeCache := rfl
        current := rfl
        node := appended.node
        indexBytes := appended.content_of_ne (attached.ne_index attached.active).symm
        segmentBytes := fun segmentId small => by
          rw [bytes segmentId small, List.append_nil, ite_self]
        lives := lives }
    refine ⟨keeps.attached attached (appended.wellFormed attached.formed) rfl rfl ?_, keeps, rfl⟩
    intro segmentId map found
    obtain ⟨small, other, file, length⟩ := attached.mapped segmentId map found
    refine ⟨small, other, file, ?_⟩
    rwa [appended.content_of_ne (attached.ne_active small other file)]

def remap (disk : CasDisk) (maps : AssocMap Nat Mmap) (dirty : Bool) (cap : Nat) : CasDisk :=
  { disk with cas := { disk.cas with segmentMaps := maps, dirty, mmapCap := cap } }

theorem keeps_remap (disk : CasDisk) (maps : AssocMap Nat Mmap) (dirty : Bool) (cap : Nat)
    : Keeps disk (disk.remap maps dirty cap) :=
  ⟨rfl, rfl, rfl, rfl, fun _ => rfl, rfl, fun _ _ => rfl, id⟩

theorem Attached.remap (attached : disk.Attached) {maps : AssocMap Nat Mmap} (dirty : Bool)
    (cap : Nat)
    (kept : ∀ segmentId map, AssocMap.lookup segmentId maps = some map
      → AssocMap.lookup segmentId disk.cas.segmentMaps = some map)
    : (disk.remap maps dirty cap).Attached :=
  (keeps_remap disk maps dirty cap).attached attached attached.formed rfl rfl
    fun segmentId map found => attached.mapped segmentId map (kept segmentId map found)

theorem lookup_of_erase {κ α : Type} [DecidableEq κ] {key other : κ} {value : α}
    {map : AssocMap κ α} (found : AssocMap.lookup other (AssocMap.erase key map) = some value)
    : AssocMap.lookup other map = some value := by
  rw [AssocMap.lookup_erase] at found
  split at found
  · simp at found
  · exact found

theorem flush_meets (attached : disk.Attached)
    : Meets
        (fun _ next => next.Attached ∧ Keeps disk next ∧ next.cas.currentFile.buffer = [])
        disk.Halts
        (flush disk) := by
  refine (flushWriter_meets attached).bind ?_
  intro _ middle _ flushed
  obtain ⟨stillAttached, keeps, empty⟩ := flushed
  rw [get_bind_apply]
  split
  · exact ⟨stillAttached, keeps, empty⟩
  · exact ⟨stillAttached.remap false middle.cas.mmapCap fun _ _ => lookup_of_erase,
      keeps.trans (keeps_remap middle _ false middle.cas.mmapCap), empty⟩

/-- Writing the buffer out adds its bytes to the file, whatever the other fields say. -/
theorem flush_appends (disk : CasDisk)
    : Meets
        (fun _ next => next.cas.index = disk.cas.index
          ∧ next.cas.repoPath = disk.cas.repoPath
          ∧ disk.fs.Appended next.fs disk.cas.currentFile.file disk.cas.currentFile.buffer)
        (fun _ _ => True)
        (flush disk) := by
  have writes : Meets
      (fun _ next => next.cas.index = disk.cas.index
        ∧ next.cas.repoPath = disk.cas.repoPath
        ∧ disk.fs.Appended next.fs disk.cas.currentFile.file disk.cas.currentFile.buffer)
      (fun _ _ => True) (flushWriter disk) := by
    rw [flushWriter, get_bind_apply]
    refine onWorld_bind (BufWriter.flush_meets disk.cas.currentFile disk.world)
      (fun _ _ _ => trivial) ?_
    rintro writer world ⟨rfl, appended, -⟩
    exact ⟨rfl, rfl, appended⟩
  refine writes.bind ?_
  intro _ middle _ written
  rw [get_bind_apply]
  split
  · exact written
  · exact written

-- Starting a segment

def Refuses (before : CasDisk) (reason : Fault EpochsError) (after : CasDisk) : Prop :=
  reason = .err (.storage (.corrupt "segment id overflow"))
  ∧ before.cas.currentSegmentId + 1 = 2 ^ 16
  ∧ after.Attached
  ∧ Keeps before after

def startNext (disk : CasDisk) (world : World) : CasDisk :=
  { world
    cas := { disk.cas with
      currentSegmentId := disk.cas.currentSegmentId + 1
      currentFile := BufWriter.new disk.fs.nextInode
      currentOffset := segmentHeaderLen } }

section Rotation

variable (attached : disk.Attached) {fs : FileSystem} {bytes : Bytes}
  (room : disk.cas.currentSegmentId + 1 < 2 ^ 16)
  (created : disk.fs.Created fs (disk.segmentPath (disk.cas.currentSegmentId + 1)) bytes)

include room created in
/-- The older segments keep their files when the next one is started. -/
theorem inodeAt_of_created {segmentId : Nat} (small : segmentId < 2 ^ 16)
    (other : segmentId ≠ disk.cas.currentSegmentId + 1)
    : fs.inodeAt (disk.segmentPath segmentId) = disk.fs.inodeAt (disk.segmentPath segmentId) := by
  rw [created.inodeAt, if_neg]
  intro same
  exact other (segmentPathFor_injective small room same)

include attached room in
theorem Attached.segmentBytes_next
    : disk.segmentBytes (disk.cas.currentSegmentId + 1) = [] :=
  segmentBytes_of_none (Nat.succ_ne_self _)
    (FileSystem.inodeAt_of_none (attached.unused _ (Nat.lt_succ_self _) room))

include attached room created in
/-- A kill while the next segment is started. -/
theorem Attached.cut_of_created : disk.Cut fs where
  formed := created.formed attached.formed
  kept path inode found := by
    rw [created.inodeAt, if_neg, found]
    rintro rfl
    rw [FileSystem.inodeAt_of_none (attached.unused _ (Nat.lt_succ_self _) room)] at found
    simp at found
  torn := by
    refine ⟨[], by decide, ?_⟩
    rw [List.append_nil]
    exact created.content_of_named attached.formed attached.indexed
  segments := by
    refine ⟨fun segmentId => if segmentId = disk.cas.currentSegmentId + 1 then bytes
        else disk.segmentBytes segmentId,
      fun segmentId _ => ?_, fun segmentId small inode found => ?_⟩
    · dsimp only
      split
      · rename_i next
        rw [next, attached.segmentBytes_next room]
        exact List.nil_prefix
      · exact List.prefix_rfl
    · dsimp only
      split
      · rename_i next
        rw [next, created.inodeAt, if_pos rfl, Option.some.injEq] at found
        exact found ▸ created.content_self ▸ List.prefix_rfl
      · rename_i other
        rw [inodeAt_of_created room created small other] at found
        rw [created.content_of_named attached.formed found]
        exact attached.content_prefix found

section Started

variable {world : World} (files : world.fs = fs) (empty : disk.cas.currentFile.buffer = [])
include attached room created files empty

/-- The bytes of the segments once the next one is active, if the buffer was empty. -/
theorem Attached.segmentBytes_startNext {segmentId : Nat} (small : segmentId < 2 ^ 16)
    : (disk.startNext world).segmentBytes segmentId
      = if segmentId = disk.cas.currentSegmentId + 1 then bytes
        else disk.segmentBytes segmentId := by
  subst files
  split
  · rename_i next
    subst next
    refine (segmentBytes_current (disk.startNext world)).trans ?_
    simp [startNext, BufWriter.new, created.content_self]
  · rename_i other
    by_cases last : segmentId = disk.cas.currentSegmentId
    · subst last
      rw [segmentBytes_current, empty, List.append_nil]
      have found := attached.active
      rw [segmentBytes_of_file other
        ((inodeAt_of_created room created small other).trans found)]
      exact created.content_of_named attached.formed found
    · refine segmentBytes_of_ne rfl (inodeAt_of_created room created small other) ?_ last other
      intro inode found
      exact created.content_of_named attached.formed found

theorem Attached.attached_startNext (length : bytes.length = segmentHeaderLen)
    : (disk.startNext world).Attached := by
  have contents := attached.segmentBytes_startNext room created files empty room
  subst files
  have named {segmentId : Nat} (other : segmentId ≠ disk.cas.currentSegmentId + 1)
      (small : segmentId < 2 ^ 16)
      : disk.segmentPath segmentId ≠ disk.segmentPath (disk.cas.currentSegmentId + 1) :=
    fun same => other (segmentPathFor_injective small room same)
  exact
    { formed := created.formed attached.formed
      data := by
        refine (created.node _).trans ((if_neg ?_).trans attached.data)
        intro same
        have lengths := congrArg List.length same
        simp [startNext, segmentPath, segmentPathFor] at lengths
      indexed := by
        refine (created.inodeAt _).trans ((if_neg ?_).trans attached.indexed)
        exact (segmentPath_ne_indexPath disk _).symm
      active := (created.inodeAt _).trans (if_pos rfl)
      offset := by
        rw [if_pos rfl] at contents
        exact (length.symm.trans (congrArg List.length contents.symm))
      bounded := room
      unused := fun segmentId later small => by
        have after : disk.cas.currentSegmentId + 1 < segmentId := later
        refine (created.node _).trans ((if_neg (named (by omega) small)).trans ?_)
        exact attached.unused segmentId (by omega) small
      located := attached.located
      mapped := fun segmentId map found => by
        obtain ⟨small, -, file, short⟩ := attached.mapped segmentId map found
        have other : segmentId ≠ disk.cas.currentSegmentId + 1 := by
          rintro rfl
          rw [FileSystem.inodeAt_of_none (attached.unused _ (Nat.lt_succ_self _) room)] at file
          simp at file
        refine ⟨small, other, (inodeAt_of_created room created small other).trans file, ?_⟩
        have same := created.content_of_named attached.formed file
        exact same.symm ▸ short }

theorem Attached.prepares_startNext (lives : disk.world.Lives world)
    (header : ∃ createdAt, bytes = encodeSegmentHeader (disk.cas.currentSegmentId + 1) createdAt)
    : Prepares disk (disk.startNext world) where
  repoPath := rfl
  index := rfl
  writeCache := rfl
  current := Nat.le_succ _
  kept path node found := by
    subst files
    refine (created.node path).trans ((if_neg ?_).trans found)
    rintro rfl
    rw [attached.unused _ (Nat.lt_succ_self _) room] at found
    simp at found
  created path node found := by
    subst files
    have here := (created.node path).symm.trans found
    split at here
    · rename_i same
      exact .inr ⟨_, Nat.le_refl _, same⟩
    · exact .inl here
  indexBytes := by
    subst files
    exact created.content_of_named attached.formed attached.indexed
  segmentBytes segmentId small := by
    rw [attached.segmentBytes_startNext room created files empty small]
    split
    · rename_i next
      rw [next, attached.segmentBytes_next room]
      exact List.nil_prefix
    · exact List.prefix_rfl
  begins segmentId small := by
    rw [attached.segmentBytes_startNext room created files empty small]
    refine ⟨fun between => ?_, fun outside => if_neg ?_⟩
    · obtain rfl : disk.cas.currentSegmentId + 1 = segmentId :=
        Nat.le_antisymm between.1 between.2
      rw [if_pos rfl]
      exact header
    · rintro rfl
      exact outside ⟨Nat.lt_succ_self _, Nat.le_refl _⟩
  headed _ := by
    have contents := attached.segmentBytes_startNext room created files empty room
    obtain ⟨createdAt, rfl⟩ := header
    rw [if_pos rfl] at contents
    exact contents.symm ▸ headed_encodeSegmentHeader _ createdAt
  lives := lives

end Started
end Rotation

theorem rotateSegment_meets (attached : disk.Attached)
    : Meets
        (fun _ next => next.Attached ∧ Prepares disk next
          ∧ next.cas.currentSegmentId = disk.cas.currentSegmentId + 1
          ∧ next.cas.currentOffset = segmentHeaderLen)
        (fun reason next => disk.Halts reason next ∨ disk.Refuses reason next)
        (rotateSegment disk) := by
  refine Meets.bind ((flush_meets attached).imp (fun _ _ flushed => flushed)
    fun _ _ halts => .inl halts) ?_
  intro _ middle _ flushed
  obtain ⟨stillAttached, keeps, empty⟩ := flushed
  rw [get_bind_apply]
  split
  · rename_i full
    refine .inr ⟨rfl, ?_, stillAttached, keeps⟩
    have := attached.bounded
    rw [keeps.current] at full
    omega
  · rename_i small
    have room : middle.cas.currentSegmentId + 1 < 2 ^ 16 := by omega
    have absent := stillAttached.unused _ (Nat.lt_succ_self _) room
    have parent : middle.fs.node
        (middle.segmentPath (middle.cas.currentSegmentId + 1)).dropLast = some .dir := by
      rw [segmentPath, segmentPathFor, List.dropLast_append_of_ne_nil (by simp)]
      exact stillAttached.data
    have prepares := keeps.prepares attached.bounded
    rw [bind_of_ok (update_apply _ _)]
    refine onWorld_bind (openOrCreateSegment_of_missing absent parent _) ?_ ?_
    · rintro reason world ⟨killed, partly⟩
      refine .inl (prepares.halts ⟨killed, ?_⟩)
      rcases partly with untouched | ⟨written, created⟩
      · exact (congrArg middle.Cut untouched).mpr stillAttached.cut_self
      · exact stillAttached.cut_of_created room created
    · rintro opened world ⟨rfl, lives, createdAt, created⟩
      have more := stillAttached.prepares_startNext room created rfl empty lives ⟨createdAt, rfl⟩
      exact ⟨stillAttached.attached_startNext room created rfl empty
          (length_encodeSegmentHeader _ _),
        prepares.trans more, congrArg (· + 1) keeps.current, rfl⟩

def HasRoom (length needed : Nat) : Prop :=
  length + needed ≤ segmentMaxBytes ∨ length = segmentHeaderLen

theorem HasRoom.le {length needed : Nat} (room : HasRoom length needed)
    : length ≤ segmentMaxBytes := by
  rcases room with fits | new
  · omega
  · rw [new]
    decide

/-- Afterwards the active segment has room, or is new. -/
theorem ensureSegmentCapacity_meets (attached : disk.Attached) (needed : Nat)
    : Meets
        (fun _ next => next.Attached ∧ Prepares disk next
          ∧ HasRoom next.cas.currentOffset needed)
        (fun reason next => disk.Halts reason next ∨ disk.Refuses reason next)
        (ensureSegmentCapacity needed disk) := by
  rw [ensureSegmentCapacity, get_bind_apply]
  split
  · refine (rotateSegment_meets attached).imp ?_ fun _ _ fault => fault
    intro _ next rotated
    obtain ⟨stillAttached, prepares, -, start⟩ := rotated
    exact ⟨stillAttached, prepares, .inr start⟩
  · rename_i room
    exact ⟨attached, (Keeps.refl disk).prepares attached.bounded, .inl (Nat.le_of_not_lt room)⟩

-- Storing a record

variable [Blake3]

/-- A record was written, and an index entry for it. -/
structure Stores (before after : CasDisk) (hash : Hash) (record : RecordType × Bytes)
    (entry : IndexEntry) : Prop where
  repoPath : after.cas.repoPath = before.cas.repoPath
  indexFile : after.cas.index.file = before.cas.index.file
  entries : after.cas.index.entries = AssocMap.insert hash entry before.cas.index.entries
  writeCache : after.cas.writeCache = before.cas.writeCache.insert hash record
  current : before.cas.currentSegmentId ≤ after.cas.currentSegmentId
  kept : ∀ path node, before.fs.node path = some node → after.fs.node path = some node
  created : ∀ path node, after.fs.node path = some node
    → before.fs.node path = some node
      ∨ ∃ segmentId ≤ after.cas.currentSegmentId, path = after.segmentPath segmentId
  indexBytes : after.indexBytes = before.indexBytes ++ IndexEntry.encode hash entry
  segmentBytes : ∀ segmentId < 2 ^ 16,
    before.segmentBytes segmentId <+: after.segmentBytes segmentId
  begins : ∀ segmentId < 2 ^ 16, segmentId ≠ after.cas.currentSegmentId
    → Begins before after segmentId (after.segmentBytes segmentId)
  written : ∃ base, Begins before after after.cas.currentSegmentId base
    ∧ HasRoom base.length (45 + record.2.length)
    ∧ after.segmentBytes after.cas.currentSegmentId
      = base ++ encodeRecord record.1 record.2 hash
    ∧ entry = ⟨after.cas.currentSegmentId, base.length, 45 + record.2.length⟩
  stored : recordAt (after.segmentBytes entry.segmentId) entry = some record
  fits : entry.Fits
  headed : Headed (before.segmentBytes before.cas.currentSegmentId)
    → Headed (after.segmentBytes after.cas.currentSegmentId)
  lives : before.world.Lives after.world

theorem Prepares.stores {before middle after : CasDisk} {hash : Hash}
    {record : RecordType × Bytes} {entry : IndexEntry} (prepares : Prepares before middle)
    (stores : Stores middle after hash record entry)
    (bounded : after.cas.currentSegmentId < 2 ^ 16)
    : Stores before after hash record entry where
  repoPath := stores.repoPath.trans prepares.repoPath
  indexFile := stores.indexFile.trans (congrArg Index.file prepares.index)
  entries := by rw [stores.entries, prepares.index]
  writeCache := by rw [stores.writeCache, prepares.writeCache]
  current := Nat.le_trans prepares.current stores.current
  kept path node found := stores.kept path node (prepares.kept path node found)
  created path node found := by
    rcases stores.created path node found with earlier | started
    · rcases prepares.created path node earlier with original | ⟨segmentId, atMost, rfl⟩
      · exact .inl original
      · refine .inr ⟨segmentId, Nat.le_trans atMost stores.current, ?_⟩
        rw [segmentPath, segmentPath, stores.repoPath]
    · exact .inr started
  indexBytes := by rw [stores.indexBytes, prepares.indexBytes]
  segmentBytes segmentId small :=
    (prepares.segmentBytes segmentId small).trans (stores.segmentBytes segmentId small)
  begins segmentId small other :=
    (prepares.begins segmentId small).trans prepares.current stores.current
      (stores.begins segmentId small other)
  written := by
    obtain ⟨base, begins, rest⟩ := stores.written
    exact ⟨base, (prepares.begins _ bounded).trans prepares.current stores.current begins, rest⟩
  stored := stores.stored
  fits := stores.fits
  headed headed := stores.headed (prepares.headed headed)
  lives alive := stores.lives (prepares.lives alive)

section WriteRecord

variable {recordType : RecordType} {payload : Bytes} (attached : disk.Attached)
  (fits : payload.length + 45 < 2 ^ 32)

def nextEntry (disk : CasDisk) (payload : Bytes) : IndexEntry :=
  { segmentId := disk.cas.currentSegmentId
    offset := disk.cas.currentOffset
    recordLen := 45 + payload.length }

def wrote (disk : CasDisk) (recordType : RecordType) (payload : Bytes) (world : World)
    (writer : BufWriter) : CasDisk :=
  { world
    cas := { disk.cas with
      index := { disk.cas.index with
        entries := AssocMap.insert (Hash.ofBytes payload) (disk.nextEntry payload)
          disk.cas.index.entries }
      currentFile := writer
      currentOffset := disk.cas.currentOffset + (45 + payload.length)
      dirty := true
      writeCache := disk.cas.writeCache.insert (Hash.ofBytes payload) (recordType, payload) } }

variable {written : FileSystem} {world : World} {writer : BufWriter} {flushed : Bytes}
  (file : writer.file = disk.cas.currentFile.file)
  (appended : disk.fs.Appended written disk.cas.currentFile.file flushed)
  (left : flushed ++ writer.buffer
    = disk.cas.currentFile.buffer ++ encodeRecord recordType payload (Hash.ofBytes payload))
  (entered : written.Appended world.fs disk.cas.index.file
    (IndexEntry.encode (Hash.ofBytes payload) (disk.nextEntry payload)))

include attached file appended left entered

theorem Attached.segmentBytes_wrote (segmentId : Nat) (small : segmentId < 2 ^ 16)
    : (disk.wrote recordType payload world writer).segmentBytes segmentId
      = if segmentId = disk.cas.currentSegmentId then
          disk.segmentBytes segmentId ++ encodeRecord recordType payload (Hash.ofBytes payload)
        else
          disk.segmentBytes segmentId :=
  @Attached.segmentBytes_written disk (disk.wrote recordType payload world writer) attached _ _ _ _
    rfl rfl file appended left entered segmentId small

theorem Attached.attached_wrote : (disk.wrote recordType payload world writer).Attached := by
  have contents := attached.segmentBytes_wrote file appended left entered _ attached.bounded
  have node (path : Path) : world.fs.node path = disk.fs.node path := by
    rw [entered.node, appended.node]
  have inodeAt (path : Path) : world.fs.inodeAt path = disk.fs.inodeAt path := by
    rw [entered.inodeAt, appended.inodeAt]
  exact
    { formed := entered.wellFormed (appended.wellFormed attached.formed)
      data := (node _).trans attached.data
      indexed := (inodeAt _).trans attached.indexed
      active := (inodeAt _).trans (attached.active.trans (congrArg some file.symm))
      offset := by
        rw [if_pos rfl] at contents
        refine Eq.trans ?_ (congrArg List.length contents.symm)
        rw [List.length_append, length_encodeRecord, ← attached.offset]
        rfl
      bounded := attached.bounded
      unused := fun segmentId later small => (node _).trans (attached.unused segmentId later small)
      located := fun hash entry found => by
        simp only [wrote, Index.find, AssocMap.lookup_insert] at found
        split at found
        · cases found
          exact attached.bounded
        · exact attached.located hash entry found
      mapped := fun segmentId map found => by
        obtain ⟨small, other, mapFile, short⟩ := attached.mapped segmentId map found
        refine ⟨small, other, (inodeAt _).trans mapFile, ?_⟩
        have same : world.fs.content map.file = disk.fs.content map.file := by
          rw [entered.content_of_ne (attached.ne_index mapFile),
            appended.content_of_ne (attached.ne_active small other mapFile)]
        exact same.symm ▸ short }

include fits in
theorem Attached.stores_wrote (room : HasRoom disk.cas.currentOffset (45 + payload.length))
    (lives : disk.world.Lives world)
    : Stores disk (disk.wrote recordType payload world writer) (Hash.ofBytes payload)
        (recordType, payload) (disk.nextEntry payload) := by
  have contents := attached.segmentBytes_wrote file appended left entered
  have node (path : Path) : world.fs.node path = disk.fs.node path := by
    rw [entered.node, appended.node]
  have begins (segmentId : Nat) : Begins disk (disk.wrote recordType payload world writer) segmentId
      (disk.segmentBytes segmentId) :=
    ⟨fun between => absurd between.1 (Nat.not_lt.mpr between.2), fun _ => rfl⟩
  have grows : ∀ segmentId < 2 ^ 16, disk.segmentBytes segmentId
      <+: (disk.wrote recordType payload world writer).segmentBytes segmentId := by
    intro segmentId small
    rw [contents segmentId small]
    split
    · exact List.prefix_append _ _
    · exact List.prefix_rfl
  exact
    { repoPath := rfl
      indexFile := rfl
      entries := rfl
      writeCache := rfl
      current := Nat.le_refl _
      kept := fun path found here => (node path).trans here
      created := fun path found here => .inl ((node path).symm.trans here)
      indexBytes := by
        refine entered.content_self.trans ?_
        rw [appended.content_of_ne (attached.ne_index attached.active).symm]
        rfl
      segmentBytes := grows
      begins := fun segmentId small other => by
        have same := (contents segmentId small).trans (if_neg other)
        exact same ▸ begins segmentId
      written := by
        refine ⟨_, begins _, attached.offset ▸ room, ?_, ?_⟩
        · exact (contents _ attached.bounded).trans (if_pos rfl)
        · rw [nextEntry, attached.offset]
          rfl
      stored := by
        have bytes := contents _ attached.bounded
        rw [if_pos rfl] at bytes
        rw [nextEntry, bytes, attached.offset]
        exact recordAt_encodeRecord fits recordType _ _
      fits := by
        refine ⟨attached.bounded, ?_, ?_⟩
        · exact Nat.lt_of_le_of_lt room.le (by decide)
        · simp only [nextEntry]
          omega
      headed := fun headed => headed.mono (grows _ attached.bounded)
      lives }

end WriteRecord

variable {payload : Bytes}

theorem writeRecord_meets (attached : disk.Attached) (recordType : RecordType)
    (fits : payload.length + 45 < 2 ^ 32)
    (room : HasRoom disk.cas.currentOffset (45 + payload.length))
    (fresh : disk.cas.index.contains (Hash.ofBytes payload) = false)
    : Meets
        (fun _ next => next.Attached
          ∧ ∃ entry, Stores disk next (Hash.ofBytes payload) (recordType, payload) entry)
        disk.Halts
        (writeRecord recordType payload disk) := by
  have length : (encodeRecord recordType payload (Hash.ofBytes payload)).length % 2 ^ 32
      = 45 + payload.length := by
    rw [length_encodeRecord]
    exact Nat.mod_eq_of_lt (by omega)
  simp only [writeRecord, length]
  rw [get_bind_apply]
  refine onWorld_bind (BufWriter.writeAll_meets disk.cas.currentFile _ disk.world) ?_ ?_
  · rintro reason world ⟨killed, flushed, appended, part⟩
    exact ⟨killed, attached.cut_of_appended appended part⟩
  · rintro writer written ⟨file, lives, flushed, appended, left⟩
    rw [bind_of_ok (update_apply _ _)]
    refine onWorld_bind (Index.insert_meets disk.cas.index fresh _ written) ?_ ?_
    · rintro reason world ⟨killed, torn, entered, short⟩
      refine ⟨⟨killed.1, fun alive => killed.2 (lives alive)⟩, ?_⟩
      exact attached.cut_of_written appended (left ▸ List.prefix_append _ _) entered short
    · rintro index world ⟨rfl, entered, stillLives⟩
      exact ⟨attached.attached_wrote file appended left entered, _,
        attached.stores_wrote fits file appended left entered room
          fun alive => stillLives (lives alive)⟩

/-- A record of any size was written. The active segment grew by all of it; the offset, and the
length in the index entry, are counted modulo 2 ^ 32.
-/
structure Grown (before after : CasDisk) (recordType : RecordType) (payload : Bytes) : Prop where
  repoPath : after.cas.repoPath = before.cas.repoPath
  current : after.cas.currentSegmentId = before.cas.currentSegmentId
  file : after.cas.currentFile.file = before.cas.currentFile.file
  inodeAt : ∀ path, after.fs.inodeAt path = before.fs.inodeAt path
  bytes : after.segmentBytes after.cas.currentSegmentId
    = before.segmentBytes before.cas.currentSegmentId
      ++ encodeRecord recordType payload (Hash.ofBytes payload)
  entries : after.cas.index.entries = AssocMap.insert (Hash.ofBytes payload)
    ⟨before.cas.currentSegmentId, before.cas.currentOffset, (45 + payload.length) % 2 ^ 32⟩
    before.cas.index.entries
  offset : after.cas.currentOffset = before.cas.currentOffset + (45 + payload.length) % 2 ^ 32
  lives : before.world.Lives after.world

theorem writeRecord_grown (attached : disk.Attached) (recordType : RecordType) (payload : Bytes)
    (fresh : disk.cas.index.contains (Hash.ofBytes payload) = false)
    : Meets (fun _ next => Grown disk next recordType payload)
        (fun reason _ => disk.world.Killed reason)
        (writeRecord recordType payload disk) := by
  simp only [writeRecord, length_encodeRecord]
  rw [get_bind_apply]
  refine onWorld_bind (BufWriter.writeAll_meets disk.cas.currentFile _ disk.world)
    (fun _ _ killed => killed.1) ?_
  rintro writer written ⟨file, lives, flushed, appended, left⟩
  rw [bind_of_ok (update_apply _ _)]
  refine onWorld_bind (Index.insert_meets disk.cas.index fresh _ written) ?_ ?_
  · rintro reason world ⟨killed, -⟩
    exact ⟨killed.1, fun alive => killed.2 (lives alive)⟩
  · rintro index world ⟨rfl, entered, stillLives⟩
    refine ⟨rfl, rfl, file, fun path => (entered.inodeAt path).trans (appended.inodeAt path), ?_,
      rfl, rfl, fun alive => stillLives (lives alive)⟩
    exact (attached.segmentBytes_written (by rfl) (by rfl) file appended left entered _
      attached.bounded).trans (if_pos rfl)

/-- A write of a new payload stores it, unless the process is killed or there is no number for
another segment.
-/
theorem put_meets (attached : disk.Attached) (recordType : RecordType)
    (fits : payload.length + 45 < 2 ^ 32)
    (fresh : disk.cas.index.contains (Hash.ofBytes payload) = false)
    : Meets
        (fun hash next => hash = Hash.ofBytes payload ∧ next.Attached
          ∧ ∃ entry, Stores disk next (Hash.ofBytes payload) (recordType, payload) entry)
        (fun reason next => disk.Halts reason next ∨ disk.Refuses reason next)
        (put recordType payload disk) := by
  rw [put, get_bind_apply]
  simp only [fresh, Bool.false_eq_true, if_false]
  refine (ensureSegmentCapacity_meets attached _).bind ?_
  rintro - middle - ⟨stillAttached, prepares, room⟩
  rw [← prepares.index] at fresh
  rw [show 41 + payload.length + 4 = 45 + payload.length by omega] at room
  refine Meets.bind ((writeRecord_meets stillAttached recordType fits room fresh).imp
    (fun _ _ wrote => wrote) fun _ _ halts => .inl (prepares.halts halts)) ?_
  rintro - next - ⟨attached, entry, stores⟩
  exact ⟨rfl, attached, entry, prepares.stores stores attached.bounded⟩

/-- There is no room for the record in the active segment, and no number for another one. -/
def Full (disk : CasDisk) (payload : Bytes) : Prop :=
  segmentMaxBytes < disk.cas.currentOffset + (45 + payload.length)
  ∧ disk.cas.currentSegmentId + 1 = 2 ^ 16

def Takes (disk : CasDisk) (payload : Bytes) : Prop :=
  payload.length + 45 < 2 ^ 32
  ∨ disk.cas.index.contains (Hash.ofBytes payload) = true
  ∨ disk.Full payload

omit [Blake3] in
theorem ensureSegmentCapacity_returns (attached : disk.Attached)
    (alive : disk.world.deadline = none) (room : ¬ disk.Full payload)
    : ∃ middle, ensureSegmentCapacity (45 + payload.length) disk = .ok () middle
        ∧ middle.Attached ∧ Prepares disk middle := by
  by_cases long : segmentMaxBytes < disk.cas.currentOffset + (45 + payload.length)
  · obtain ⟨_, middle, ran, stillAttached, prepares, -⟩ :=
      (ensureSegmentCapacity_meets attached (45 + payload.length)).returns fun reason next fault =>
        fault.elim (fun halts => halts.1.2 alive) fun refuses => room ⟨long, refuses.2.1⟩
    exact ⟨middle, ran, stillAttached, prepares⟩
  · refine ⟨disk, ?_, attached, (Keeps.refl disk).prepares attached.bounded⟩
    rw [ensureSegmentCapacity, get_bind_apply]
    rw [if_neg long]
    rfl

/-- A write of a new payload of any size, if there is a segment for it. -/
theorem put_grown (attached : disk.Attached) (alive : disk.world.deadline = none)
    (recordType : RecordType)
    (fresh : disk.cas.index.contains (Hash.ofBytes payload) = false) (room : ¬ disk.Full payload)
    : ∃ middle next, put recordType payload disk = .ok (Hash.ofBytes payload) next
        ∧ middle.Attached ∧ Prepares disk middle ∧ Grown middle next recordType payload := by
  obtain ⟨middle, ensured, stillAttached, prepares⟩ :=
    ensureSegmentCapacity_returns attached alive room
  have stillFresh := fresh
  rw [← prepares.index] at stillFresh
  obtain ⟨_, next, wrote, grown⟩ :=
    (writeRecord_grown stillAttached recordType payload stillFresh).returns fun reason next killed =>
      killed.2 (prepares.lives alive)
  refine ⟨middle, next, ?_, stillAttached, prepares, grown⟩
  rw [put, get_bind_apply]
  simp only [fresh, Bool.false_eq_true, if_false]
  rw [show 41 + payload.length + 4 = 45 + payload.length by omega, bind_of_ok ensured,
    bind_of_ok wrote]
  rfl

omit [Blake3] in
theorem ensureSegmentCapacity_of_full (attached : disk.Attached)
    (full : disk.Full payload)
    : Meets (fun _ _ => False)
        (fun reason next => disk.Halts reason next ∨ disk.Refuses reason next)
        (ensureSegmentCapacity (45 + payload.length) disk) := by
  rw [ensureSegmentCapacity, get_bind_apply]
  rw [if_pos full.1]
  refine (rotateSegment_meets attached).imp ?_ fun _ _ fault => fault
  rintro - next ⟨stillAttached, -, current, -⟩
  have bounded := stillAttached.bounded
  rw [current, full.2] at bounded
  exact Nat.lt_irrefl _ bounded

/-- A write of a new payload is refused when there is no segment for it. -/
theorem put_of_full (attached : disk.Attached) (alive : disk.world.deadline = none)
    (recordType : RecordType)
    (fresh : disk.cas.index.contains (Hash.ofBytes payload) = false) (full : disk.Full payload)
    : ∃ error next, put recordType payload disk = .error (.err error) next
        ∧ disk.Refuses (.err error) next := by
  have meets := ensureSegmentCapacity_of_full attached full
  rw [put, get_bind_apply]
  simp only [fresh, Bool.false_eq_true, if_false]
  rw [show 41 + payload.length + 4 = 45 + payload.length by omega, bind_apply]
  cases outcome : ensureSegmentCapacity (45 + payload.length) disk with
  | ok _ next =>
    rw [outcome] at meets
    exact meets.elim
  | error reason next =>
    rw [outcome] at meets
    rcases meets with halts | refuses
    · exact absurd alive halts.1.2
    · obtain ⟨rfl, rest⟩ := refuses
      exact ⟨_, next, rfl, rfl, rest⟩

/-- A write of a payload whose hash is indexed does nothing. -/
theorem put_of_contains
    (present : disk.cas.index.contains (Hash.ofBytes payload) = true) (recordType : RecordType)
    : put recordType payload disk = .ok (Hash.ofBytes payload) disk := by
  rw [put, get_bind_apply]
  simp only [present, if_true]
  rfl

end CasDisk
end Epochs
