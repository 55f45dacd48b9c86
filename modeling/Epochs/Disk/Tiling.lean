import Epochs.Disk.Refinement
import Epochs.Lib.Blocks

/-! The layout of the segment files. Each is a header followed by records, one for each object
that the index has in the segment, without gaps or overlaps.
-/

namespace Epochs

open Lib Blocks

def encodeObject [Blake3] (object : RecordType × Bytes) : Bytes :=
  encodeRecord object.1 object.2 (Hash.ofBytes object.2)

def recordLength (object : RecordType × Bytes) : Nat := 45 + object.2.length

def appendObject (objects : Nat → List (RecordType × Bytes)) (segmentId : Nat)
    (object : RecordType × Bytes) : Nat → List (RecordType × Bytes) := fun other =>
  if other = segmentId then objects other ++ [object] else objects other

theorem appendObject_self (objects : Nat → List (RecordType × Bytes)) (segmentId : Nat)
    (object : RecordType × Bytes)
    : appendObject objects segmentId object segmentId = objects segmentId ++ [object] :=
  if_pos rfl

variable {segmentId : Nat}

theorem appendObject_of_ne (objects : Nat → List (RecordType × Bytes)) {other : Nat}
    (different : other ≠ segmentId) (object : RecordType × Bytes)
    : appendObject objects segmentId object other = objects other :=
  if_neg different

namespace CasDisk

variable [Blake3] {disk before after : CasDisk} {objects : Nat → List (RecordType × Bytes)}

-- The log

/-- The objects of each segment, in the order they were written: the segments are their
records, and the index says where each of them is.
-/
structure Logs (disk : CasDisk) (objects : Nat → List (RecordType × Bytes)) : Prop where
  bytes : ∀ segmentId ≤ disk.cas.currentSegmentId, ∃ createdAt, disk.segmentBytes segmentId
    = encodeSegmentHeader segmentId createdAt ++ (objects segmentId).flatMap encodeObject
  index : ∀ hash entry, disk.cas.index.find hash = some entry
    ↔ ∃ object, Placed recordLength segmentHeaderLen (objects entry.segmentId) entry.offset object
      ∧ hash = Hash.ofBytes object.2 ∧ entry.recordLen = recordLength object
  distinct : ∀ segmentId, ((objects segmentId).map fun object => Hash.ofBytes object.2).Nodup
  single : ∀ segmentId ≤ disk.cas.currentSegmentId,
    segmentMaxBytes < (disk.segmentBytes segmentId).length → (objects segmentId).length = 1
  unstarted : ∀ segmentId, disk.cas.currentSegmentId < segmentId → objects segmentId = []

theorem length_encodeObject (object : RecordType × Bytes)
    : (encodeObject object).length = recordLength object :=
  length_encodeRecord _ _ _

theorem finish_objects (segmentId createdAt : Nat) (objects : List (RecordType × Bytes))
    : finish recordLength segmentHeaderLen objects
      = (encodeSegmentHeader segmentId createdAt ++ objects.flatMap encodeObject).length := by
  rw [← finish_eq_length length_encodeObject, length_encodeSegmentHeader]

theorem Still.logs (still : Still before after) (bounded : before.cas.currentSegmentId < 2 ^ 16)
    (logs : before.Logs objects)
    : after.Logs objects := by
  obtain ⟨index, current, segmentBytes⟩ := still
  have same : ∀ segmentId ≤ before.cas.currentSegmentId,
      after.segmentBytes segmentId = before.segmentBytes segmentId :=
    fun segmentId atMost => segmentBytes segmentId (Nat.lt_of_le_of_lt atMost bounded)
  refine ⟨fun segmentId atMost => ?_, index ▸ logs.index, logs.distinct,
    fun segmentId atMost long => ?_, current ▸ logs.unstarted⟩
  · rw [current] at atMost
    rw [same segmentId atMost]
    exact logs.bytes segmentId atMost
  · rw [current] at atMost
    rw [same segmentId atMost] at long
    exact logs.single segmentId atMost long

/-- Before a record is written to it, a segment is its objects, of which a new one has none. -/
theorem Logs.begins (logs : before.Logs objects) {bytes : Bytes}
    (atMost : segmentId ≤ after.cas.currentSegmentId)
    (begins : Begins before after segmentId bytes)
    : ∃ createdAt, bytes
      = encodeSegmentHeader segmentId createdAt ++ (objects segmentId).flatMap encodeObject := by
  by_cases between : Between before after segmentId
  · obtain ⟨createdAt, rfl⟩ := begins.1 between
    exact ⟨createdAt, by simp [logs.unstarted segmentId between.1]⟩
  · rw [begins.2 between]
    exact logs.bytes segmentId (le_of_not_between atMost between)

/-- A hash that is not indexed is the hash of no object in the log. -/
theorem Logs.ne_of_fresh (logs : disk.Logs objects) {hash : Hash}
    (fresh : disk.cas.index.find hash = none) {offset : Nat}
    {object : RecordType × Bytes}
    (placed : Placed recordLength segmentHeaderLen (objects segmentId) offset object)
    : hash ≠ Hash.ofBytes object.2 := by
  rintro rfl
  have found := (logs.index (Hash.ofBytes object.2) ⟨segmentId, offset, recordLength object⟩).mpr
    ⟨object, placed, rfl, rfl⟩
  simp [fresh] at found

/-- Indexing a new object where the records of a segment end. -/
theorem Logs.index_append (logs : disk.Logs objects) (object : RecordType × Bytes)
    (fresh : disk.cas.index.find (Hash.ofBytes object.2) = none) (segmentId : Nat)
    (hash : Hash) (entry : IndexEntry)
    : AssocMap.lookup hash (AssocMap.insert (Hash.ofBytes object.2)
          ⟨segmentId, finish recordLength segmentHeaderLen (objects segmentId),
            recordLength object⟩ disk.cas.index.entries) = some entry
      ↔ ∃ other, Placed recordLength segmentHeaderLen
          (appendObject objects segmentId object entry.segmentId) entry.offset other
        ∧ hash = Hash.ofBytes other.2 ∧ entry.recordLen = recordLength other := by
  have old := logs.index hash entry
  rw [Index.find] at old
  by_cases here : entry.segmentId = segmentId
  · subst here
    simp only [appendObject_self, placed_concat, AssocMap.lookup_insert]
    split
    · rename_i same
      subst same
      constructor
      · intro found
        have offset := congrArg IndexEntry.offset (Option.some.inj found)
        have length := congrArg IndexEntry.recordLen (Option.some.inj found)
        exact ⟨object, .inr ⟨offset.symm, rfl⟩, rfl, length.symm⟩
      · rintro ⟨other, placed | ⟨offset, rfl⟩, same, length⟩
        · exact absurd same (logs.ne_of_fresh fresh placed)
        · rw [← offset, ← length]
    · rename_i different
      refine old.trans (exists_congr fun other => and_congr_left fun same => ?_)
      refine ⟨.inl, fun placed => placed.resolve_right ?_⟩
      rintro ⟨-, rfl⟩
      exact different same.1.symm
  · rw [appendObject_of_ne objects here, AssocMap.lookup_insert]
    split
    · rename_i same
      subst same
      constructor
      · intro found
        exact absurd (congrArg IndexEntry.segmentId (Option.some.inj found)).symm here
      · rintro ⟨other, placed, same, -⟩
        exact absurd same (logs.ne_of_fresh fresh placed)
    · exact old

theorem Logs.distinct_append (logs : disk.Logs objects) (object : RecordType × Bytes)
    (fresh : disk.cas.index.find (Hash.ofBytes object.2) = none) (segmentId other : Nat)
    : ((appendObject objects segmentId object other).map fun row => Hash.ofBytes row.2).Nodup := by
  by_cases here : other = segmentId
  · subst here
    rw [appendObject_self, List.map_append, List.nodup_append]
    refine ⟨logs.distinct _, by simp, ?_⟩
    rintro hash member _ new rfl
    obtain ⟨row, stored, rfl⟩ := List.mem_map.mp member
    obtain ⟨offset, placed⟩ := exists_placed segmentHeaderLen stored
    exact logs.ne_of_fresh fresh placed (by simpa [eq_comm] using new)
  · rw [appendObject_of_ne objects here]
    exact logs.distinct other

/-- Storing an object appends it to the log. -/
theorem Stores.logs_append {recordType : RecordType} {payload : Bytes} {entry : IndexEntry}
    (stores : Stores before after (Hash.ofBytes payload) (recordType, payload) entry)
    (bounded : after.cas.currentSegmentId < 2 ^ 16) (logs : before.Logs objects)
    (fresh : before.cas.index.find (Hash.ofBytes payload) = none)
    : after.Logs (appendObject objects after.cas.currentSegmentId (recordType, payload)) := by
  obtain ⟨base, begins, room, written, rfl⟩ := stores.written
  obtain ⟨createdAt, based⟩ := logs.begins (Nat.le_refl _) begins
  have ends : finish recordLength segmentHeaderLen (objects after.cas.currentSegmentId)
      = base.length := by
    rw [finish_objects after.cas.currentSegmentId createdAt, based]
  refine ⟨fun segmentId atMost => ?_, fun hash entry => ?_,
    logs.distinct_append (recordType, payload) fresh after.cas.currentSegmentId, fun segmentId atMost long => ?_,
    fun segmentId above => ?_⟩
  · by_cases active : segmentId = after.cas.currentSegmentId
    · subst active
      refine ⟨createdAt, ?_⟩
      rw [written, based, appendObject_self, List.flatMap_append, List.append_assoc]
      simp [encodeObject]
    · rw [appendObject_of_ne objects active]
      have small := Nat.lt_of_le_of_lt atMost bounded
      exact logs.begins atMost (stores.begins segmentId small active)
  · have indexed := logs.index_append (recordType, payload) fresh
      after.cas.currentSegmentId hash entry
    rw [ends] at indexed
    rw [Index.find, stores.entries]
    exact indexed
  · by_cases active : segmentId = after.cas.currentSegmentId
    · subst active
      rw [written, List.length_append, length_encodeRecord] at long
      have new : base.length = segmentHeaderLen := room.resolve_left (Nat.not_le.mpr long)
      have none : objects after.cas.currentSegmentId = [] := by
        rw [based, List.length_append, length_encodeSegmentHeader] at new
        cases stored : objects after.cas.currentSegmentId with
        | nil => rfl
        | cons object rest =>
          rw [stored, List.flatMap_cons, List.length_append, length_encodeObject,
            recordLength] at new
          omega
      rw [appendObject_self, none]
      rfl
    · rw [appendObject_of_ne objects active]
      have begins := stores.begins segmentId (Nat.lt_of_le_of_lt atMost bounded) active
      by_cases between : Between before after segmentId
      · obtain ⟨createdAt, contents⟩ := begins.1 between
        rw [contents, length_encodeSegmentHeader] at long
        exact absurd long (by decide)
      · rw [begins.2 between] at long
        exact logs.single segmentId (le_of_not_between atMost between) long
  · rw [appendObject_of_ne objects (Nat.ne_of_gt above)]
    exact logs.unstarted segmentId (Nat.lt_of_le_of_lt stores.current above)

/-- A store opened on a directory that held nothing has one segment, without objects. -/
theorem Opens.logs {fs : FileSystem} {path : Path} (opens : Opens fs path disk)
    (unindexed : fs.node (path ++ ["index.epi"]) = none)
    (unwritten : ∀ name, fs.node (path ++ ["data", name]) = none)
    : disk.Logs fun _ => [] := by
  obtain ⟨first, createdAt, contents⟩ := opens.fresh unwritten
  have entries : disk.cas.index.entries = [] := opens.entries_of_unindexed unindexed
  refine ⟨fun segmentId atMost => ?_, fun hash entry => ?_, fun _ => by simp,
    fun segmentId atMost long => ?_, fun _ _ => rfl⟩
  · obtain rfl : segmentId = 0 := by omega
    exact ⟨createdAt, by simpa using contents⟩
  · simp [Index.find, entries, Placed]
  · obtain rfl : segmentId = 0 := by omega
    rw [contents, length_encodeSegmentHeader] at long
    exact absurd long (by decide)

-- Tilings

def IndexedAt (disk : CasDisk) (segmentId : Nat) (hash : Hash) (entry : IndexEntry) : Prop :=
  disk.cas.index.find hash = some entry ∧ entry.segmentId = segmentId

/-- The bytes are a segment header and then the records of the objects, which are those the
index has in the segment; their entries do not overlap, cover every byte after the header, and
each is the place of its object's record. There is only one if the segment is too long.
-/
structure TiledBy (disk : CasDisk) (segmentId : Nat) (bytes : Bytes)
    (objects : List (RecordType × Bytes)) : Prop where
  layout : ∃ createdAt,
    bytes = encodeSegmentHeader segmentId createdAt ++ objects.flatMap encodeObject
  distinct : (objects.map fun object => Hash.ofBytes object.2).Nodup
  listed : ∀ hash, (∃ entry, disk.IndexedAt segmentId hash entry)
    ↔ ∃ object ∈ objects, Hash.ofBytes object.2 = hash
  located : ∀ hash entry, disk.IndexedAt segmentId hash entry
    → entry.offset + entry.recordLen ≤ bytes.length
      ∧ ∃ object ∈ objects, Hash.ofBytes object.2 = hash
        ∧ World.slice bytes entry.offset entry.recordLen = encodeObject object
  disjoint : ∀ hash other entry otherEntry, disk.IndexedAt segmentId hash entry
    → disk.IndexedAt segmentId other otherEntry → hash ≠ other
    → entry.offset + entry.recordLen ≤ otherEntry.offset
      ∨ otherEntry.offset + otherEntry.recordLen ≤ entry.offset
  covered : ∀ position < bytes.length, segmentHeaderLen ≤ position
    ↔ ∃ hash entry, disk.IndexedAt segmentId hash entry
      ∧ entry.offset ≤ position ∧ position < entry.offset + entry.recordLen
  single : segmentMaxBytes < bytes.length → objects.length = 1

theorem Logs.tiledBy (logs : disk.Logs objects)
    (atMost : segmentId ≤ disk.cas.currentSegmentId)
    : disk.TiledBy segmentId (disk.segmentBytes segmentId) (objects segmentId) := by
  obtain ⟨createdAt, contents⟩ := logs.bytes segmentId atMost
  have ends : finish recordLength segmentHeaderLen (objects segmentId)
      = (disk.segmentBytes segmentId).length := by
    rw [contents]
    exact finish_objects segmentId createdAt _
  have placed {hash : Hash} {entry : IndexEntry} (indexed : disk.IndexedAt segmentId hash entry)
      : ∃ object, Placed recordLength segmentHeaderLen (objects segmentId) entry.offset object
        ∧ hash = Hash.ofBytes object.2 ∧ entry.recordLen = recordLength object := by
    obtain ⟨found, rfl⟩ := indexed
    exact (logs.index hash entry).mp found
  have indexed {offset : Nat} {object : RecordType × Bytes}
      (placed : Placed recordLength segmentHeaderLen (objects segmentId) offset object)
      : disk.IndexedAt segmentId (Hash.ofBytes object.2)
        ⟨segmentId, offset, recordLength object⟩ :=
    ⟨(logs.index _ _).mpr ⟨object, placed, rfl, rfl⟩, rfl⟩
  exact
    { layout := ⟨createdAt, contents⟩
      distinct := logs.distinct segmentId
      listed := fun hash => by
        constructor
        · rintro ⟨entry, found⟩
          obtain ⟨object, place, rfl, -⟩ := placed found
          exact ⟨object, place.mem, rfl⟩
        · rintro ⟨object, member, rfl⟩
          obtain ⟨offset, place⟩ := exists_placed segmentHeaderLen member
          exact ⟨_, indexed place⟩
      located := fun hash entry found => by
        obtain ⟨object, place, rfl, length⟩ := placed found
        refine ⟨?_, object, place.mem, rfl, ?_⟩
        · rw [length, ← ends]
          exact place.within.2
        · rw [← length_encodeSegmentHeader segmentId createdAt] at place
          rw [World.slice, contents, length]
          exact place.slice length_encodeObject
      disjoint := fun hash other entry otherEntry found otherFound different => by
        obtain ⟨object, place, rfl, length⟩ := placed found
        obtain ⟨otherObject, otherPlace, rfl, otherLength⟩ := placed otherFound
        rw [length, otherLength]
        refine (place.disjoint otherPlace).resolve_left ?_
        rintro ⟨-, rfl⟩
        exact different rfl
      covered := fun position inside => by
        constructor
        · intro lower
          obtain ⟨offset, object, place, covers⟩ := exists_covering lower (ends ▸ inside)
          exact ⟨_, _, indexed place, covers⟩
        · rintro ⟨hash, entry, found, from_, -⟩
          obtain ⟨object, place, -⟩ := placed found
          exact Nat.le_trans place.within.1 from_
      single := logs.single segmentId atMost }

/-- Every file in the data directory is a segment that is tiled by the index. -/
def FilesTiled (disk : CasDisk) : Prop :=
  ∀ name inode, disk.fs.inodeAt (disk.cas.repoPath ++ ["data", name]) = some inode
    → ∃ segmentId < 2 ^ 16, name = segmentName segmentId
      ∧ ∃ objects, disk.TiledBy segmentId (disk.fs.content inode) objects

theorem Clean.filesTiled (clean : disk.Clean) (logs : disk.Logs objects)
    (empty : disk.cas.currentFile.buffer = [])
    : disk.FilesTiled := by
  intro name inode found
  obtain ⟨segmentId, atMost, rfl⟩ := clean.names name _ (FileSystem.inodeAt_eq_some.mp found)
  have whole : disk.segmentBytes segmentId = disk.fs.content inode := by
    by_cases active : segmentId = disk.cas.currentSegmentId
    · subst active
      obtain rfl : disk.cas.currentFile.file = inode :=
        Option.some.inj (clean.active.symm.trans found)
      rw [segmentBytes_current, empty, List.append_nil]
    · exact segmentBytes_of_file active found
  exact ⟨segmentId, Nat.lt_of_le_of_lt atMost clean.bounded, rfl, objects segmentId,
    whole ▸ logs.tiledBy atMost⟩

/-- The files are tiled once what is buffered is written out. -/
def TiledWhenFlushed (disk : CasDisk) : Prop :=
  ∃ flushed, flush disk = .ok () flushed ∧ flushed.FilesTiled

theorem Clean.tiledWhenFlushed (clean : disk.Clean) (alive : disk.world.deadline = none)
    (logs : disk.Logs objects)
    : disk.TiledWhenFlushed := by
  obtain ⟨_, flushed, ran, attached, keeps, empty⟩ :=
    (flush_meets clean.toAttached).returns fun reason next halts => halts.1.2 alive
  exact ⟨flushed, ran,
    (keeps.clean clean attached).filesTiled (keeps.still.logs clean.bounded logs) empty⟩

-- A record that is too long

theorem Prepares.logs (prepares : Prepares before after)
    (bounded : after.cas.currentSegmentId < 2 ^ 16) (logs : before.Logs objects)
    : after.Logs objects := by
  have begins : ∀ segmentId ≤ after.cas.currentSegmentId,
      Begins before after segmentId (after.segmentBytes segmentId) :=
    fun segmentId atMost => prepares.begins segmentId (Nat.lt_of_le_of_lt atMost bounded)
  refine ⟨fun segmentId atMost => logs.begins atMost (begins segmentId atMost),
    prepares.index ▸ logs.index, logs.distinct, fun segmentId atMost long => ?_,
    fun segmentId above => logs.unstarted segmentId (Nat.lt_of_le_of_lt prepares.current above)⟩
  by_cases between : Between before after segmentId
  · obtain ⟨createdAt, contents⟩ := (begins segmentId atMost).1 between
    rw [contents, length_encodeSegmentHeader] at long
    exact absurd long (by decide)
  · rw [(begins segmentId atMost).2 between] at long
    exact logs.single segmentId (le_of_not_between atMost between) long

/-- The entry of a record of 2 ^ 32 bytes or more does not reach its end, so the files are not
tiled.
-/
theorem Grown.not_tiledWhenFlushed {recordType : RecordType} {payload : Bytes}
    (grown : Grown before after recordType payload) (attached : before.Attached)
    (logs : before.Logs objects) (long : 2 ^ 32 ≤ payload.length + 45)
    : ¬ after.TiledWhenFlushed := by
  rintro ⟨flushed, ran, tiled⟩
  obtain ⟨index, repoPath, appended⟩ := (flush_appends after).of_ok ran
  have contents : flushed.fs.content before.cas.currentFile.file
      = before.segmentBytes before.cas.currentSegmentId
        ++ encodeRecord recordType payload (Hash.ofBytes payload) := by
    rw [← grown.bytes, segmentBytes_current, ← grown.file]
    exact appended.content_self
  have found : flushed.fs.inodeAt (flushed.cas.repoPath
      ++ ["data", segmentName before.cas.currentSegmentId])
      = some before.cas.currentFile.file := by
    rw [repoPath, grown.repoPath, appended.inodeAt, grown.inodeAt]
    exact attached.active
  obtain ⟨segmentId, small, named, rows, tiledBy⟩ := tiled _ _ found
  obtain rfl := segmentName_injective attached.bounded small named
  obtain ⟨createdAt, based⟩ := logs.bytes _ (Nat.le_refl _)
  have ends := finish_objects before.cas.currentSegmentId createdAt
    (objects before.cas.currentSegmentId)
  rw [← based, ← attached.offset] at ends
  have wraps : (45 + payload.length) % 2 ^ 32 < 45 + payload.length :=
    Nat.lt_of_lt_of_le (Nat.mod_lt _ (by decide)) (by omega)
  -- The first byte of the record that its entry does not cover.
  have covered := (tiledBy.covered
    (before.cas.currentOffset + (45 + payload.length) % 2 ^ 32) (by
      rw [contents, List.length_append, length_encodeRecord, ← attached.offset]
      omega)).mp (by
    have := le_finish recordLength segmentHeaderLen (objects before.cas.currentSegmentId)
    omega)
  obtain ⟨hash, entry, ⟨listed, here⟩, starts, covers⟩ := covered
  rw [index, Index.find, grown.entries, AssocMap.lookup_insert] at listed
  split at listed
  · cases listed
    exact absurd covers (Nat.lt_irrefl _)
  · obtain ⟨object, placed, -, length⟩ := (logs.index hash entry).mp listed
    rw [here] at placed
    have inside := placed.within.2
    omega

-- Whole runs

theorem Moves.logs (moves : before.Moves after) (bounded : before.cas.currentSegmentId < 2 ^ 16)
    (logs : before.Logs objects)
    : ∃ objects, after.Logs objects := by
  rcases moves with still | ⟨recordType, payload, entry, fresh, small, stores⟩
  · exact ⟨objects, still.logs bounded logs⟩
  · exact ⟨_, stores.logs_append small logs fresh⟩

def Logged (disk : CasDisk) : Prop :=
  disk.Clean ∧ disk.world.deadline = none ∧ ∃ objects, disk.Logs objects

theorem Logged.call (logged : disk.Logged) {call : CasCall} (takes : disk.TakesCall call)
    : ∃ reply next, CasDisk.call call disk = .ok reply next ∧ next.Logged := by
  obtain ⟨clean, alive, objects, logs⟩ := logged
  obtain ⟨reply, next, ran, ⟨stillClean, stillAlive, -⟩, moves⟩ := call_answered clean alive call takes
  exact ⟨reply, next, ran, stillClean, stillAlive, moves.logs clean.bounded logs⟩

theorem Logged.not_tiled (logged : disk.Logged) {call : CasCall} (refuses : ¬ disk.TakesCall call)
    : ¬ (Run.stateOf (CasDisk.call call disk)).TiledWhenFlushed := by
  obtain ⟨clean, alive, objects, logs⟩ := logged
  cases call with
  | put recordType payload =>
    simp only [TakesCall, Takes, not_or, Bool.not_eq_true] at refuses
    obtain ⟨long, fresh, room⟩ := refuses
    obtain ⟨middle, next, ran, attached, prepares, grown⟩ :=
      put_grown clean.toAttached alive recordType fresh room
    rw [CasDisk.call, Run.map_apply, Run.observe_of_ok ran]
    exact grown.not_tiledWhenFlushed attached (prepares.logs attached.bounded logs)
      (Nat.le_of_not_lt long)
  | _ => exact absurd trivial refuses

/-- A store opened on a repository that held nothing. -/
theorem logged_of_open {world : World} {repoPath : Path} (formed : world.fs.WellFormed)
    (alive : world.deadline = none) (vacant : Vacant world.fs repoPath)
    (opens : CasStore.open_ repoPath world = .ok disk.cas disk.world)
    : disk.Logged := by
  obtain ⟨opened, lives⟩ := (open_meets formed repoPath).of_ok opens
  have unindexed := vacant "index.epi" []
  have unwritten : ∀ name, world.fs.node (repoPath ++ ["data", name]) = none :=
    fun name => vacant "data" [name]
  exact ⟨(opened.clean unindexed unwritten).1, lives alive, _, opened.logs unindexed unwritten⟩

/-- On a repository that held nothing, in every state of a run of calls the segment files are
tiled by the index, once what is buffered is written out, exactly when no record of 2 ^ 32
bytes or more is written.
-/
theorem files_tiled_iff {world : World} {repoPath : Path} (formed : world.fs.WellFormed)
    (alive : world.deadline = none) (vacant : Vacant world.fs repoPath)
    (opens : CasStore.open_ repoPath world = .ok disk.cas disk.world) (calls : List CasCall)
    : (∀ front, front <+: calls → (Run.stateOf (front.mapM CasDisk.call disk)).TiledWhenFlushed)
      ↔ Run.Each CasDisk.call TakesCall calls disk :=
  Run.good_iff_each (fun _ _ logged takes => logged.call takes)
    (fun _ logged => logged.1.tiledWhenFlushed logged.2.1 logged.2.2.choose_spec)
    (fun _ _ logged refuses => logged.not_tiled refuses)
    (logged_of_open formed alive vacant opens) calls

end CasDisk

-- A run that keeps the tiling, and a record of 2 ^ 32 bytes

section Linked

attribute [local instance] Blake3.linked

theorem CasDisk.files_tiled_iff_reopenedCalls
    : (∀ call ∈ reopenedCalls, call.Fits)
      ∧ ∀ front, front <+: reopenedCalls
        → (Run.stateOf (front.mapM CasDisk.call CasDisk.bare)).TiledWhenFlushed := by
  have fits : ∀ call ∈ reopenedCalls, call.Fits := by decide
  exact ⟨fits, (CasDisk.files_tiled_iff FileSystem.wellFormed_empty rfl
    (CasDisk.vacant_bare ["repo"]) CasDisk.open_eq_bare reopenedCalls).mpr
      fun front call back split => CasDisk.takesCall_of_fits _ (fits call (by simp [split]))⟩

/-- A first write whose record has 2 ^ 32 bytes or more. -/
theorem CasDisk.bare_not_tiled {payload : Bytes} (long : 2 ^ 32 ≤ payload.length + 45)
    : ¬ ∀ front, front <+: [CasCall.put .hamtLeaf payload]
        → (Run.stateOf (front.mapM CasDisk.call CasDisk.bare)).TiledWhenFlushed := by
  intro tiled
  have last := tiled _ List.prefix_rfl
  rw [Run.stateOf_mapM_singleton] at last
  have logged := CasDisk.logged_of_open FileSystem.wellFormed_empty rfl
    (CasDisk.vacant_bare ["repo"]) CasDisk.open_eq_bare
  refine logged.not_tiled ?_ last
  have unindexed := CasDisk.opens_bare.entries_of_unindexed
    (CasDisk.vacant_bare ["repo"] "index.epi" [])
  rintro (fits | present | full)
  · omega
  · simp [Index.contains, unindexed, AssocMap.contains] at present
  · exact absurd full.2 (by decide +kernel)

/-- A write of 2 ^ 32 - 45 zeros. -/
theorem CasDisk.files_not_tiled
    : ∃ payload, payload = List.replicate (2 ^ 32 - 45) 0
        ∧ ¬ ∀ front, front <+: [CasCall.put .hamtLeaf payload]
          → (Run.stateOf (front.mapM CasDisk.call CasDisk.bare)).TiledWhenFlushed :=
  ⟨_, rfl, CasDisk.bare_not_tiled (by rw [List.length_replicate]; decide)⟩

end Linked
end Epochs
