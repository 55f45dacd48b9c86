import Epochs.Core.Backend
import Epochs.Disk.Index
import Epochs.Disk.Segment
import Epochs.Lib.LruMap

/-! The segmented append-only store on disk. Records go through a write buffer to the segment
file, index entries straight to the index file; reads come from an object cache, a memory map
of a sealed segment or the segment file.
-/

namespace Epochs

open Lib

def writeCacheCap : Nat := 8192

def mmapSegmentsCap : Nat := 4

structure Mmap where
  file : Nat
  length : Nat

structure CasStore where
  repoPath : Path
  index : Index
  currentSegmentId : Nat
  currentFile : BufWriter
  currentOffset : Nat
  dirty : Bool
  writeCache : LruMap Hash (RecordType × Bytes)
  segmentMaps : AssocMap Nat Mmap
  mmapCap : Nat

structure CasDisk where
  world : World
  cas : CasStore

namespace CasStore

def open_ (repoPath : Path) : Run EpochsError World CasStore := do
  World.createDirAll (repoPath ++ ["data"])
  let index ← Index.open_ (repoPath ++ ["index.epi"])
  let segmentId := (findLatestSegment (← get).fs repoPath).getD 0
  let (file, offset) ← openOrCreateSegment (segmentPathFor repoPath segmentId) segmentId
  pure
    { repoPath
      index
      currentSegmentId := segmentId
      currentFile := BufWriter.new file
      currentOffset := offset
      dirty := false
      writeCache := LruMap.new writeCacheCap
      segmentMaps := []
      mmapCap := mmapSegmentsCap }

def setObjectCacheCap (cas : CasStore) (cap : Nat) : CasStore :=
  { cas with writeCache := LruMap.new cap }

def unmapOldest : (fuel : Nat) → (bound : Nat) → AssocMap Nat Mmap → AssocMap Nat Mmap
  | 0, _, maps => maps
  | fuel + 1, bound, maps =>
    if bound < maps.length then
      match (AssocMap.keys maps).min? with
      | some oldest => unmapOldest fuel bound (AssocMap.erase oldest maps)
      | none => maps
    else
      maps

def setMmapCap (cas : CasStore) (cap : Nat) : CasStore :=
  { cas with
    mmapCap := cap
    segmentMaps := unmapOldest cas.segmentMaps.length cap cas.segmentMaps }

def contains (cas : CasStore) (hash : Hash) : Bool := cas.index.contains hash

end CasStore

namespace CasDisk

def onWorld {α : Type} (run : Run EpochsError World α) : Run EpochsError CasDisk α :=
  Run.zoom world (fun disk world => { disk with world }) run

theorem onWorld_of_ok {α : Type} {run : Run EpochsError World α} {disk : CasDisk} {value : α}
    {world : World} (ran : run disk.world = .ok value world)
    : onWorld run disk = .ok value { disk with world } := by
  simp only [onWorld, Run.zoom, ran]

theorem onWorld_of_error {α : Type} {run : Run EpochsError World α} {disk : CasDisk}
    {reason : Fault EpochsError} {world : World} (failed : run disk.world = .error reason world)
    : onWorld run disk = .error reason { disk with world } := by
  simp only [onWorld, Run.zoom, failed]

theorem onWorld_bind {α β : Type} {run : Run EpochsError World α}
    {next : α → Run EpochsError CasDisk β} {disk : CasDisk} {post : α → World → Prop}
    {fault : Fault EpochsError → World → Prop} {last : β → CasDisk → Prop}
    {stop : Fault EpochsError → CasDisk → Prop}
    (first : Run.Meets post fault (run disk.world))
    (faults : ∀ reason world, fault reason world → stop reason { disk with world })
    (second : ∀ value world, post value world
      → Run.Meets last stop (next value { disk with world }))
    : Run.Meets last stop ((onWorld run >>= next) disk) :=
  first.bind_zoom faults second

def update (change : CasStore → CasStore) : Run EpochsError CasDisk Unit :=
  modify fun disk => { disk with cas := change disk.cas }

theorem update_apply (change : CasStore → CasStore) (disk : CasDisk)
    : update change disk = .ok () { disk with cas := change disk.cas } := rfl

def flushWriter : Run EpochsError CasDisk Unit := do
  let writer ← onWorld (← get).cas.currentFile.flush
  update fun cas => { cas with currentFile := writer }

def flush : Run EpochsError CasDisk Unit := do
  flushWriter
  if !(← get).cas.dirty then
    pure ()
  else
    update fun cas =>
      { cas with
        dirty := false
        segmentMaps := AssocMap.erase cas.currentSegmentId cas.segmentMaps }

def rotateSegment : Run EpochsError CasDisk Unit := do
  flush
  let cas := (← get).cas
  let next := cas.currentSegmentId + 1
  if 2 ^ 16 ≤ next then
    Run.fail (.storage (.corrupt "segment id overflow"))
  else do
    update fun cas => { cas with currentSegmentId := next }
    let (file, offset) ← onWorld (openOrCreateSegment (segmentPathFor cas.repoPath next) next)
    update fun cas => { cas with currentFile := BufWriter.new file, currentOffset := offset }

def ensureSegmentCapacity (needed : Nat) : Run EpochsError CasDisk Unit := do
  if segmentMaxBytes < (← get).cas.currentOffset + needed then
    rotateSegment
  else
    pure ()

def writeRecord [Blake3] (recordType : RecordType) (payload : Bytes)
    : Run EpochsError CasDisk Unit := do
  let hash := Hash.ofBytes payload
  let recordBytes := encodeRecord recordType payload hash
  let recordLen := recordBytes.length % 2 ^ 32
  let cas := (← get).cas
  let writer ← onWorld (cas.currentFile.writeAll recordBytes)
  update fun cas => { cas with currentFile := writer }
  let index ← onWorld (cas.index.insert hash
    { segmentId := cas.currentSegmentId, offset := cas.currentOffset, recordLen })
  update fun cas =>
    { cas with
      index
      currentOffset := cas.currentOffset + recordLen
      dirty := true
      writeCache := cas.writeCache.insert hash (recordType, payload) }

def put [Blake3] (recordType : RecordType) (payload : Bytes) : Run EpochsError CasDisk Hash := do
  let hash := Hash.ofBytes payload
  if (← get).cas.index.contains hash then
    pure hash
  else do
    ensureSegmentCapacity (41 + payload.length + 4)
    writeRecord recordType payload
    pure hash

def ensureMmap (segmentId : Nat) : Run EpochsError CasDisk Mmap := do
  let cas := (← get).cas
  if cas.mmapCap = 0 then
    Run.fail (.storage (.corrupt "mmap disabled"))
  else
    match AssocMap.lookup segmentId cas.segmentMaps with
    | some map => pure map
    | none => do
      let file ← onWorld (World.openRead (segmentPathFor cas.repoPath segmentId))
      let map : Mmap := { file, length := ((← get).world.fs.content file).length }
      update fun cas =>
        { cas with
          segmentMaps := AssocMap.insert segmentId map
            (CasStore.unmapOldest cas.segmentMaps.length (cas.mmapCap - 1) cas.segmentMaps) }
      pure map

def readFile (entry : IndexEntry) : Run EpochsError CasDisk Bytes := do
  let cas := (← get).cas
  let file ← onWorld (World.openRead (segmentPathFor cas.repoPath entry.segmentId))
  onWorld (World.readExact file entry.offset entry.recordLen)

/-- Read a record from a map. A file that lost the mapped bytes stops the process. -/
def readMap (map : Mmap) (entry : IndexEntry) : Run EpochsError CasDisk Bytes := do
  let bytes := (← get).world.fs.content map.file
  if entry.offset + entry.recordLen ≤ bytes.length then
    pure (World.slice bytes entry.offset entry.recordLen)
  else
    throw .killed

def flushActive (segmentId : Nat) : Run EpochsError CasDisk Unit := do
  if segmentId = (← get).cas.currentSegmentId then flushWriter else pure ()

def readSealed (entry : IndexEntry) : Run EpochsError CasDisk Bytes := do
  match ← Run.observe (ensureMmap entry.segmentId) with
  | .ok map =>
    if entry.offset + entry.recordLen ≤ map.length then readMap map entry else readFile entry
  | .error _ => readFile entry

/-- The bytes of a record: from a map of a sealed segment when maps are enabled, else from the
file, after the active segment's buffer is written out.
-/
def readRecordBytes (entry : IndexEntry) : Run EpochsError CasDisk Bytes := do
  flushActive entry.segmentId
  let cas := (← get).cas
  if 0 < cas.mmapCap ∧ entry.segmentId ≠ cas.currentSegmentId then
    readSealed entry
  else
    readFile entry

def getPayload [Blake3] (hash : Hash) : Run EpochsError CasDisk (RecordType × Bytes) := do
  let cas := (← get).cas
  match cas.writeCache.get hash with
  | some found => pure found
  | none =>
    match cas.index.find hash with
    | none => Run.fail (.storage (.notFound hash))
    | some entry => do
      let recordBuf ← readRecordBytes entry
      let record ← Run.ofExcept (decodeRecord recordBuf)
      update fun cas =>
        { cas with
          writeCache := cas.writeCache.insert hash (record.recordType, record.payload) }
      pure (record.recordType, record.payload)

def reopen : Run EpochsError CasDisk Unit := do
  let _ ← Run.observe flush
  let cas ← onWorld (CasStore.open_ (← get).cas.repoPath)
  update fun _ => cas

instance [Blake3] : CasBackend CasDisk where
  put := put
  getRecord := getPayload

end CasDisk
end Epochs
