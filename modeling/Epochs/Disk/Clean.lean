import Epochs.Disk.Lawful
import Epochs.Disk.Open

/-! The files of a store that has only been used through its operations since it was created:
the index file lists exactly the entries in memory, and every indexed record is readable and
hashes to its key. Every operation keeps this, and so does closing and opening the store.
-/

namespace Epochs

open Lib Run

namespace CasDisk

variable [Blake3] {disk before after : CasDisk}

/-- The store and its files were written by the store alone. -/
structure Clean (disk : CasDisk) : Prop extends Consistent disk where
  dirs : ∀ front, front <+: disk.cas.repoPath ++ ["data"] → disk.fs.node front = some .dir
  log : ∃ log, disk.indexBytes = Index.encodeLog log
    ∧ disk.cas.index.entries = Index.replay log []
    ∧ ∀ pair ∈ log, pair.2.Fits
  names : ∀ name node, disk.fs.node (disk.cas.repoPath ++ ["data", name]) = some node
    → ∃ segmentId ≤ disk.cas.currentSegmentId, name = segmentName segmentId
  headed : Headed (disk.segmentBytes disk.cas.currentSegmentId)
  honest : disk.Honest
  keyed : ∀ hash record, disk.view hash = some record → Hash.ofBytes record.2 = hash

theorem Keeps.clean (keeps : Keeps before after) (clean : before.Clean) (attached : after.Attached)
    : after.Clean where
  toConsistent := keeps.consistent clean.toConsistent attached
  dirs front above := by
    rw [keeps.node]
    exact clean.dirs front (keeps.repoPath ▸ above)
  log := by
    rw [keeps.indexBytes, keeps.index]
    exact clean.log
  names name node found := by
    rw [keeps.current]
    rw [keeps.node, keeps.repoPath] at found
    exact clean.names name node found
  headed := by
    rw [keeps.current, keeps.segmentBytes _ clean.bounded]
    exact clean.headed
  honest := keeps.honest clean.toAttached clean.honest
  keyed := by
    rw [keeps.view clean.toAttached]
    exact clean.keyed

theorem Clean.recache (clean : disk.Clean) {cache : LruMap Hash (RecordType × Bytes)}
    (cached : ∀ hash record, cache.get hash = some record → disk.view hash = some record)
    : (disk.recache cache).Clean where
  toConsistent := clean.toConsistent.recache cached
  dirs := clean.dirs
  log := clean.log
  names := clean.names
  headed := clean.headed
  honest := clean.honest
  keyed := clean.keyed

theorem Stores.clean {payload : Bytes} {recordType : RecordType} {entry : IndexEntry}
    (stores : Stores before after (Hash.ofBytes payload) (recordType, payload) entry)
    (clean : before.Clean) (attached : after.Attached)
    (fresh : before.cas.index.find (Hash.ofBytes payload) = none)
    : after.Clean where
  toConsistent := stores.consistent clean.toConsistent attached fresh
  dirs front above := stores.kept front _ (clean.dirs front (stores.repoPath ▸ above))
  log := by
    obtain ⟨log, bytes, entries, fits⟩ := clean.log
    refine ⟨log ++ [(Hash.ofBytes payload, entry)], ?_, ?_, ?_⟩
    · rw [stores.indexBytes, bytes, Index.encodeLog_concat]
    · rw [stores.entries, entries, Index.replay_concat]
    · intro pair member
      rcases List.mem_append.mp member with old | new
      · exact fits pair old
      · rw [List.mem_singleton.mp new]
        exact stores.fits
  names name node found := by
    rcases stores.created _ _ found with earlier | ⟨segmentId, atMost, same⟩
    · rw [stores.repoPath] at earlier
      obtain ⟨segmentId, atMost, named⟩ := clean.names name node earlier
      exact ⟨segmentId, Nat.le_trans atMost stores.current, named⟩
    · refine ⟨segmentId, atMost, ?_⟩
      simpa [segmentPath, segmentPathFor] using same
  headed := stores.headed clean.headed
  honest := stores.honest clean.toAttached clean.honest
  keyed hash record held := by
    rw [stores.view_eq_add clean.toAttached clean.honest fresh] at held
    rcases View.add_cases held with old | ⟨rfl, rfl⟩
    · exact clean.keyed hash record old
    · rfl

-- Opening

omit [Blake3] in
theorem Opens.entries_of_unindexed {fs : FileSystem} {path : Path} (opens : Opens fs path disk)
    (unindexed : fs.node (path ++ ["index.epi"]) = none)
    : disk.cas.index.entries = [] := by
  have loaded := opens.loaded
  rw [opens.emptyIndex unindexed] at loaded
  exact (Except.ok.inj loaded).symm

/-- A store opened on a directory without an index and without segments is clean, and empty. -/
theorem Opens.clean {fs : FileSystem} {path : Path} (opens : Opens fs path disk)
    (unindexed : fs.node (path ++ ["index.epi"]) = none)
    (unwritten : ∀ name, fs.node (path ++ ["data", name]) = none)
    : disk.Clean ∧ ∀ hash, disk.view hash = none := by
  have entries := opens.entries_of_unindexed unindexed
  have unheld (hash : Hash) : disk.view hash = none := by
    simp [view, Index.find, entries]
  refine ⟨?_, unheld⟩
  exact
    { toAttached := opens.attached
      cached := fun hash record found => by
        rw [opens.writeCache] at found
        simp at found
      dirs := opens.repoPath ▸ opens.dirs
      log := ⟨[], opens.emptyIndex unindexed, entries, by simp⟩
      names := fun name node found => by
        rw [opens.repoPath] at found
        rcases opens.grows.added _ _ found with old | above | index | segment
        · simp [unwritten] at old
        · have short := above.length_le
          simp at short
        · simp at index
        · exact ⟨_, Nat.le_refl _, by simpa [segmentPathFor] using segment⟩
      headed := opens.headed
      honest := fun hash entry found => by simp [Index.find, entries] at found
      keyed := fun hash record held => by simp [unheld] at held }

theorem Clean.latest (clean : disk.Clean)
    : (findLatestSegment disk.fs disk.cas.repoPath).getD 0 = disk.cas.currentSegmentId := by
  have atLeast := le_findLatestSegment clean.formed clean.bounded
    (FileSystem.inodeAt_eq_some.mp clean.active)
  refine Nat.le_antisymm ?_ atLeast
  cases latest : findLatestSegment disk.fs disk.cas.repoPath with
  | none => exact Nat.zero_le _
  | some segmentId =>
    obtain ⟨⟨name, node⟩, listed, parsed⟩ := List.mem_filterMap.mp (List.max?_mem latest)
    rw [clean.formed.mem_children] at listed
    obtain ⟨named, atMost, rfl⟩ := clean.names name node (by simpa using listed)
    dsimp only at parsed
    rw [parseU16_segmentName (Nat.lt_of_le_of_lt atMost clean.bounded)] at parsed
    cases parsed
    exact atMost

theorem Clean.index_open (clean : disk.Clean)
    : Index.open_ disk.indexPath disk.world = .ok disk.cas.index disk.world := by
  obtain ⟨log, bytes, entries, fits⟩ := clean.log
  have parent : ∀ front, front <+: disk.indexPath.dropLast
      → disk.world.fs.node front = some .dir := by
    intro front above
    rw [indexPath, dropLast_index] at above
    exact clean.dirs front (above.trans (List.prefix_append _ _))
  have enough : log.length ≤ disk.indexBytes.length := by
    rw [bytes, Index.length_encodeLog, indexEntryLen]
    omega
  have loaded := Index.loadEntries_encodeLog fits (by decide : ([] : Bytes).length < indexEntryLen)
    enough []
  rw [List.append_nil, ← bytes, ← entries] at loaded
  rw [Index.open_, bind_of_ok (World.createDirAll_of_dirs parent),
    bind_of_ok (World.openAppend_of_file clean.indexed), get_bind_apply]
  rw [show disk.world.fs.content disk.cas.index.file = disk.indexBytes from rfl, loaded]
  rfl

def renewed (disk : CasDisk) : CasDisk :=
  (disk.remap [] false mmapSegmentsCap).recache (LruMap.new writeCacheCap)

/-- Opening the files of a clean store whose buffer is written out gives that store again. -/
theorem Clean.open_eq (clean : disk.Clean) (empty : disk.cas.currentFile.buffer = [])
    : CasStore.open_ disk.cas.repoPath disk.world = .ok disk.renewed.cas disk.world := by
  have contents : disk.world.fs.content disk.cas.currentFile.file
      = disk.segmentBytes disk.cas.currentSegmentId := by
    rw [segmentBytes_current, empty, List.append_nil]
  have opened := openOrCreateSegment_of_file clean.active disk.cas.currentSegmentId
  rw [contents, if_neg (Nat.not_lt.mpr clean.headed.1), if_neg (not_not.mpr clean.headed.2),
    ← clean.offset, segmentPath] at opened
  have indexOpened := clean.index_open
  rw [indexPath] at indexOpened
  rw [CasStore.open_, bind_of_ok (World.createDirAll_of_dirs clean.dirs),
    bind_of_ok indexOpened, get_bind_apply]
  rw [clean.latest, bind_of_ok opened]
  simp only [renewed, remap, CasDisk.recache, BufWriter.new, pure_apply]
  rw [← empty]

theorem Clean.renewed (clean : disk.Clean) : disk.renewed.Clean := by
  have keeps := keeps_remap disk [] false mmapSegmentsCap
  have attached := clean.toAttached.remap false mmapSegmentsCap
    (fun _ _ found => by simp at found : ∀ segmentId map,
      AssocMap.lookup segmentId ([] : AssocMap Nat Mmap) = some map → _)
  exact (keeps.clean clean attached).recache fun hash record found => by simp at found

/-- Closing and opening a clean store gives the same store, with nothing cached or mapped. -/
theorem reopen_spec (clean : disk.Clean) (alive : disk.world.deadline = none)
    : ∃ middle, Keeps disk middle ∧ middle.Clean
        ∧ reopen disk = .ok () middle.renewed := by
  obtain ⟨_, middle, flushed, attached, keeps, empty⟩ :=
    (flush_meets clean.toAttached).returns fun reason next halts => halts.1.2 alive
  have stillClean := keeps.clean clean attached
  refine ⟨middle, keeps, stillClean, ?_⟩
  rw [reopen, bind_of_ok (observe_of_ok flushed), get_bind_apply]
  rw [bind_of_ok (onWorld_of_ok (stillClean.open_eq empty))]
  rfl

end CasDisk
end Epochs
