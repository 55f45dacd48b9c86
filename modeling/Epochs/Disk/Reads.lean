import Epochs.Disk.Writes

/-! What the reading operations return from a store that agrees with its files, and the laws of
the store on disk.
-/

namespace Epochs

open Lib Run

namespace CasDisk

variable {disk : CasDisk}

-- Reading the bytes of a record

variable {segmentId : Nat}

theorem openSegment_of_file {inode : Nat}
    (found : disk.fs.inodeAt (disk.segmentPath segmentId) = some inode)
    : onWorld (World.openRead (segmentPathFor disk.cas.repoPath segmentId)) disk
      = .ok inode disk :=
  onWorld_of_ok (World.openRead_of_file found)

theorem openSegment_of_none
    (absent : disk.fs.inodeAt (disk.segmentPath segmentId) = none)
    : ∃ error, onWorld (World.openRead (segmentPathFor disk.cas.repoPath segmentId)) disk
      = .error (.err error) disk := by
  obtain ⟨error, failed⟩ := World.openRead_of_none absent
  exact ⟨error, onWorld_of_error failed⟩

/-- Every entry of the reduced maps is one of the old ones. -/
theorem lookup_unmapOldest {fuel bound : Nat} {maps : AssocMap Nat Mmap} {map : Mmap}
    (found : AssocMap.lookup segmentId (CasStore.unmapOldest fuel bound maps) = some map)
    : AssocMap.lookup segmentId maps = some map := by
  induction fuel generalizing maps with
  | zero => exact found
  | succ fuel ih =>
    simp only [CasStore.unmapOldest] at found
    split at found
    · split at found
      · exact lookup_of_erase (ih found)
      · exact found
    · exact found

theorem ensureMmap_meets (attached : disk.Attached) (small : segmentId < 2 ^ 16)
    (other : segmentId ≠ disk.cas.currentSegmentId)
    : Meets
        (fun map next => next.Attached ∧ Keeps disk next
          ∧ disk.fs.inodeAt (disk.segmentPath segmentId) = some map.file
          ∧ map.length ≤ (next.fs.content map.file).length)
        (fun reason next => (∃ error, reason = .err error) ∧ next = disk)
        (ensureMmap segmentId disk) := by
  rw [ensureMmap, get_bind_apply]
  split
  · exact ⟨⟨_, rfl⟩, rfl⟩
  · cases present : AssocMap.lookup segmentId disk.cas.segmentMaps with
    | some map =>
      obtain ⟨-, -, file, short⟩ := attached.mapped segmentId map present
      exact ⟨attached, Keeps.refl disk, file, short⟩
    | none =>
      cases found : disk.fs.inodeAt (disk.segmentPath segmentId) with
      | none =>
        obtain ⟨error, failed⟩ := openSegment_of_none found
        simp only [bind_of_error failed]
        exact ⟨⟨error, rfl⟩, rfl⟩
      | some inode =>
        simp only [bind_of_ok (openSegment_of_file found)]
        rw [get_bind_apply]
        refine ⟨?_, keeps_remap disk _ disk.cas.dirty disk.cas.mmapCap, rfl, Nat.le_refl _⟩
        refine (keeps_remap disk _ disk.cas.dirty disk.cas.mmapCap).attached attached
          attached.formed rfl rfl ?_
        intro mapped map here
        simp only [remap, AssocMap.lookup_insert] at here
        split at here
        · rename_i same
          cases here
          subst same
          exact ⟨small, other, found, Nat.le_refl _⟩
        · exact attached.mapped mapped map (lookup_unmapOldest here)

/-- A file holds all bytes of its segment once the buffer is written out. -/
theorem Attached.content_eq (attached : disk.Attached) {inode : Nat}
    (settled : segmentId = disk.cas.currentSegmentId → disk.cas.currentFile.buffer = [])
    (found : disk.fs.inodeAt (disk.segmentPath segmentId) = some inode)
    : disk.fs.content inode = disk.segmentBytes segmentId := by
  by_cases same : segmentId = disk.cas.currentSegmentId
  · have empty := settled same
    subst same
    obtain rfl : disk.cas.currentFile.file = inode :=
      Option.some.inj (attached.active.symm.trans found)
    rw [segmentBytes_current, empty, List.append_nil]
  · exact (segmentBytes_of_file same found).symm

variable [Blake3]

def Fetched (disk : CasDisk) (entry : IndexEntry) (bytes : Bytes) (next : CasDisk) : Prop :=
  next.Attached
  ∧ Keeps disk next
  ∧ entry.offset + entry.recordLen ≤ (disk.segmentBytes entry.segmentId).length
  ∧ bytes = World.slice (disk.segmentBytes entry.segmentId) entry.offset entry.recordLen

def Missed (disk : CasDisk) (entry : IndexEntry) (reason : Fault EpochsError) (next : CasDisk)
    : Prop :=
  (∃ error, reason = .err error)
  ∧ next.Attached
  ∧ Keeps disk next
  ∧ recordAt (disk.segmentBytes entry.segmentId) entry = none

theorem recordAt_nil (entry : IndexEntry) : recordAt [] entry = none := by
  unfold recordAt
  split
  · simp [World.slice, decodeRecord]
  · rfl

variable {entry : IndexEntry}

theorem readFile_meets (attached : disk.Attached)
    (settled : entry.segmentId = disk.cas.currentSegmentId → disk.cas.currentFile.buffer = [])
    : Meets (disk.Fetched entry) (disk.Missed entry) (readFile entry disk) := by
  rw [readFile, get_bind_apply]
  cases found : disk.fs.inodeAt (disk.segmentPath entry.segmentId) with
  | none =>
    obtain ⟨error, failed⟩ := openSegment_of_none found
    rw [bind_of_error failed]
    refine ⟨⟨error, rfl⟩, attached, Keeps.refl disk, ?_⟩
    rw [segmentBytes_of_none ?_ found, recordAt_nil]
    intro same
    rw [same, attached.active] at found
    simp at found
  | some inode =>
    rw [bind_of_ok (openSegment_of_file found)]
    have whole := attached.content_eq settled found
    have read := World.readExact_apply inode entry.offset entry.recordLen disk.world
    split at read
    · rename_i inside
      rw [onWorld_of_ok read]
      exact ⟨attached, Keeps.refl disk, whole ▸ inside, by rw [← whole]⟩
    · rename_i outside
      rw [onWorld_of_error read]
      exact ⟨⟨_, rfl⟩, attached, Keeps.refl disk, recordAt_of_short (whole ▸ outside)⟩

theorem readMap_meets (attached : disk.Attached) {map : Mmap}
    (other : entry.segmentId ≠ disk.cas.currentSegmentId)
    (found : disk.fs.inodeAt (disk.segmentPath entry.segmentId) = some map.file)
    (inside : entry.offset + entry.recordLen ≤ (disk.fs.content map.file).length)
    : Meets (disk.Fetched entry) (disk.Missed entry) (readMap map entry disk) := by
  rw [readMap, get_bind_apply]
  rw [if_pos inside]
  have whole := segmentBytes_of_file other found
  exact ⟨attached, Keeps.refl disk, whole ▸ inside, by rw [whole]⟩

variable {before : CasDisk}

omit [Blake3] in
theorem Keeps.fetched {middle : CasDisk} (keeps : Keeps before middle)
    (small : entry.segmentId < 2 ^ 16) {bytes : Bytes} {next : CasDisk}
    (fetched : middle.Fetched entry bytes next)
    : before.Fetched entry bytes next := by
  obtain ⟨attached, further, inside, same⟩ := fetched
  rw [keeps.segmentBytes _ small] at inside same
  exact ⟨attached, keeps.trans further, inside, same⟩

theorem Keeps.missed {middle : CasDisk} (keeps : Keeps before middle)
    (small : entry.segmentId < 2 ^ 16) {reason : Fault EpochsError} {next : CasDisk}
    (missed : middle.Missed entry reason next)
    : before.Missed entry reason next := by
  obtain ⟨failed, attached, further, none_⟩ := missed
  rw [keeps.segmentBytes _ small] at none_
  exact ⟨failed, attached, keeps.trans further, none_⟩

theorem readSealed_meets (attached : disk.Attached)
    (small : entry.segmentId < 2 ^ 16) (other : entry.segmentId ≠ disk.cas.currentSegmentId)
    : Meets (disk.Fetched entry) (disk.Missed entry) (readSealed entry disk) := by
  have mapped := ensureMmap_meets attached small other
  rw [readSealed]
  cases outcome : ensureMmap entry.segmentId disk with
  | ok map next =>
    rw [outcome] at mapped
    rw [bind_of_ok (observe_of_ok outcome)]
    obtain ⟨stillAttached, keeps, file, short⟩ := mapped
    have stillOther : entry.segmentId ≠ next.cas.currentSegmentId := keeps.current ▸ other
    have here : next.fs.inodeAt (next.segmentPath entry.segmentId) = some map.file := by
      rw [keeps.inodeAt, keeps.segmentPath, file]
    dsimp only
    split
    · rename_i inside
      exact (readMap_meets stillAttached stillOther here (Nat.le_trans inside short)).imp
        (fun _ _ => keeps.fetched small) fun _ _ => keeps.missed small
    · exact (readFile_meets stillAttached fun same => absurd same stillOther).imp
        (fun _ _ => keeps.fetched small) fun _ _ => keeps.missed small
  | error reason next =>
    rw [outcome] at mapped
    obtain ⟨⟨error, rfl⟩, rfl⟩ := mapped
    rw [bind_of_ok (observe_of_err outcome)]
    exact readFile_meets attached fun same => absurd same other

/-- Without a deadline, a read returns the bytes at the location or finds no record there. -/
theorem readRecordBytes_meets (attached : disk.Attached) (alive : disk.world.deadline = none)
    (small : entry.segmentId < 2 ^ 16)
    : Meets (disk.Fetched entry) (disk.Missed entry) (readRecordBytes entry disk) := by
  have flushed : Meets
      (fun _ next => next.Attached ∧ Keeps disk next
        ∧ (entry.segmentId = disk.cas.currentSegmentId → next.cas.currentFile.buffer = []))
      (disk.Missed entry)
      (flushActive entry.segmentId disk) := by
    rw [flushActive, get_bind_apply]
    split
    · refine (flushWriter_meets attached).imp ?_ ?_
      · intro _ next flushed
        exact ⟨flushed.1, flushed.2.1, fun _ => flushed.2.2⟩
      · intro reason next halts
        exact absurd alive halts.1.2
    · rename_i other
      exact ⟨attached, Keeps.refl disk, fun same => absurd same other⟩
  refine flushed.bind ?_
  rintro - middle - ⟨stillAttached, keeps, settled⟩
  rw [get_bind_apply]
  split
  · rename_i sealed_
    exact (readSealed_meets stillAttached small sealed_.2).imp
      (fun _ _ => keeps.fetched small) fun _ _ => keeps.missed small
  · exact (readFile_meets stillAttached fun same => settled (keeps.current ▸ same)).imp
      (fun _ _ => keeps.fetched small) fun _ _ => keeps.missed small

-- What a store holds

def view (disk : CasDisk) : View := fun hash =>
  (disk.cas.index.find hash).bind fun entry =>
    recordAt (disk.segmentBytes entry.segmentId) entry

/-- The store agrees with its files, and so does its object cache. -/
structure Consistent (disk : CasDisk) : Prop extends Attached disk where
  cached : ∀ hash record, disk.cas.writeCache.get hash = some record
    → disk.view hash = some record

def Honest (disk : CasDisk) : Prop :=
  ∀ hash entry, disk.cas.index.find hash = some entry → ∃ record, disk.view hash = some record

variable {after : CasDisk}

theorem Keeps.view (keeps : Keeps before after)
    (attached : before.Attached)
    : after.view = before.view := by
  funext hash
  simp only [CasDisk.view, keeps.index]
  cases found : before.cas.index.find hash with
  | none => rfl
  | some entry =>
    rw [Option.bind_some, Option.bind_some,
      keeps.segmentBytes _ (attached.located hash entry found)]

theorem Keeps.consistent (keeps : Keeps before after)
    (consistent : before.Consistent) (attached : after.Attached)
    : after.Consistent :=
  ⟨attached, fun hash record found => by
    rw [keeps.view consistent.toAttached]
    exact consistent.cached hash record (keeps.writeCache ▸ found)⟩

theorem Keeps.honest (keeps : Keeps before after)
    (attached : before.Attached) (honest : before.Honest)
    : after.Honest := by
  intro hash entry found
  rw [keeps.view attached]
  exact honest hash entry (keeps.index ▸ found)

def recache (disk : CasDisk) (cache : LruMap Hash (RecordType × Bytes)) : CasDisk :=
  { disk with cas := { disk.cas with writeCache := cache } }

theorem Consistent.recache (consistent : disk.Consistent)
    {cache : LruMap Hash (RecordType × Bytes)}
    (cached : ∀ hash record, cache.get hash = some record → disk.view hash = some record)
    : (disk.recache cache).Consistent where
  formed := consistent.formed
  data := consistent.data
  indexed := consistent.indexed
  active := consistent.active
  offset := consistent.offset
  bounded := consistent.bounded
  unused := consistent.unused
  located := consistent.located
  mapped := consistent.mapped
  cached := cached

/-- A read returns what the store holds under the hash, and may change the object cache. -/
theorem getPayload_meets (consistent : disk.Consistent) (alive : disk.world.deadline = none)
    (hash : Hash)
    : Meets
        (fun record next => disk.view hash = some record
          ∧ ∃ middle cache, next = middle.recache cache ∧ middle.Consistent ∧ Keeps disk middle
            ∧ ∀ other found, cache.get other = some found → middle.view other = some found)
        (fun reason next => disk.view hash = none ∧ next.Consistent ∧ Keeps disk next
          ∧ (∃ error, reason = .err error)
          ∧ (disk.cas.index.find hash = none → reason = .err (.storage (.notFound hash))))
        (getPayload hash disk) := by
  rw [getPayload, get_bind_apply]
  cases hit : disk.cas.writeCache.get hash with
  | some record =>
    exact ⟨consistent.cached hash record hit, disk, disk.cas.writeCache, rfl, consistent,
      Keeps.refl disk, consistent.cached⟩
  | none =>
    cases found : disk.cas.index.find hash with
    | none =>
      refine ⟨?_, consistent, Keeps.refl disk, ⟨_, rfl⟩, fun _ => rfl⟩
      simp [view, found]
    | some entry =>
      have small := consistent.located hash entry found
      have seen : disk.view hash = recordAt (disk.segmentBytes entry.segmentId) entry := by
        simp [view, found]
      refine Meets.bind
        ((readRecordBytes_meets consistent.toAttached alive small).imp
          (fun _ _ fetched => fetched) ?_) ?_
      · intro reason next missed
        obtain ⟨failed, attached, keeps, absent⟩ := missed
        exact ⟨seen.trans absent, keeps.consistent consistent attached, keeps, failed,
          fun unindexed => by simp at unindexed⟩
      · intro bytes middle _ fetched
        obtain ⟨attached, keeps, inside, rfl⟩ := fetched
        have stillConsistent := keeps.consistent consistent attached
        rw [recordAt, if_pos inside] at seen
        cases decoded : decodeRecord
            (World.slice (disk.segmentBytes entry.segmentId) entry.offset entry.recordLen) with
        | error error =>
          rw [decoded] at seen
          exact ⟨seen, stillConsistent, keeps, ⟨error, rfl⟩, fun unindexed => by simp at unindexed⟩
        | ok record =>
          rw [decoded] at seen
          refine ⟨seen, middle, _, rfl, stillConsistent, keeps, ?_⟩
          intro other cached here
          rw [keeps.view consistent.toAttached]
          rcases LruMap.get_insert here with ⟨rfl, rfl⟩ | old
          · exact seen
          · exact consistent.cached other cached (keeps.writeCache ▸ old)

/-- A read returns a record exactly when the store holds it under the hash. -/
theorem getPayload_eq_ok (consistent : disk.Consistent) (alive : disk.world.deadline = none)
    {hash : Hash} {record : RecordType × Bytes}
    : (∃ next, getPayload hash disk = .ok record next) ↔ disk.view hash = some record := by
  have meets := getPayload_meets consistent alive hash
  constructor
  · rintro ⟨next, ran⟩
    rw [ran] at meets
    exact meets.1
  · intro held
    cases outcome : getPayload hash disk with
    | ok value next =>
      rw [outcome] at meets
      cases meets.1.symm.trans held
      exact ⟨next, rfl⟩
    | error reason next =>
      rw [outcome] at meets
      simp [held] at meets

end CasDisk
end Epochs
