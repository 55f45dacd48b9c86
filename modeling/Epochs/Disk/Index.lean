import Epochs.Core.Codec
import Epochs.Disk.World

/-! The `.epi` index: 44-byte entries in a file that is only appended to, read back as a map
from content hashes to record locations.
-/

namespace Epochs

open Lib Decoder ByteDecoder

def indexEntryLen : Nat := 44

structure IndexEntry where
  segmentId : Nat
  offset : Nat
  recordLen : Nat
  deriving DecidableEq

namespace IndexEntry

def encode (hash : Hash) (entry : IndexEntry) : Bytes :=
  writeHash hash ++ writeU16 entry.segmentId ++ writeU48 entry.offset ++ writeU32 entry.recordLen

def decode : ByteDecoder (Hash × IndexEntry) := do
  let hash ← readHash
  let segmentId ← readU16
  let offset ← readU48
  let recordLen ← readU32
  pure (hash, { segmentId, offset, recordLen })

structure Fits (entry : IndexEntry) : Prop where
  segmentId : entry.segmentId < 2 ^ 16
  offset : entry.offset < 2 ^ 48
  recordLen : entry.recordLen < 2 ^ 32

theorem length_encode (hash : Hash) (entry : IndexEntry)
    : (encode hash entry).length = indexEntryLen := by
  simp [encode, indexEntryLen, length_writeHash, length_writeU16, length_writeU48,
    length_writeU32]

theorem decode_reads (hash : Hash) {entry : IndexEntry} (fits : entry.Fits)
    : Reads decode (encode hash entry) (hash, entry) := by
  have segment := readU16_reads entry.segmentId
  rw [Nat.mod_eq_of_lt (show entry.segmentId < 65536 from fits.segmentId)] at segment
  have offset := readU48_reads entry.offset
  rw [Nat.mod_eq_of_lt fits.offset] at offset
  have length := readU32_reads entry.recordLen
  rw [Nat.mod_eq_of_lt fits.recordLen] at length
  simp only [encode, List.append_assoc]
  exact (readHash_reads hash).bind (segment.bind (offset.bind length.result))

theorem decode_located {buf rest : Bytes} {hash : Hash} {entry : IndexEntry}
    (decoded : decode buf = .ok ((hash, entry), rest))
    : entry.segmentId < 2 ^ 16 := by
  simp only [decode, bind_eq_ok, pure_apply, Except.ok.injEq, Prod.mk.injEq] at decoded
  obtain ⟨_, _, _, segmentId, _, read, _, _, _, _, _, _, ⟨-, rfl⟩, -⟩ := decoded
  exact readUint_lt read

end IndexEntry

structure Index where
  file : Nat
  entries : AssocMap Hash IndexEntry

namespace Index

def loadEntries : (fuel : Nat) → (buf : Bytes) → AssocMap Hash IndexEntry
    → Except EpochsError (AssocMap Hash IndexEntry)
  | 0, _, entries => .ok entries
  | fuel + 1, buf, entries =>
    if indexEntryLen ≤ buf.length then
      match IndexEntry.decode (buf.take indexEntryLen) with
      | .ok ((hash, entry), _) =>
        loadEntries fuel (buf.drop indexEntryLen) (AssocMap.insert hash entry entries)
      | .error error => .error error
    else
      .ok entries

def open_ (path : Path) : Run EpochsError World Index := do
  World.createDirAll path.dropLast
  let file ← World.openAppend path
  let buf := (← get).fs.content file
  let entries ← Run.ofExcept (loadEntries buf.length buf [])
  pure { file, entries }

/-- Every entry read from a file has a 16-bit segment number. -/
theorem loadEntries_located {fuel : Nat} {buf : Bytes} {entries loaded : AssocMap Hash IndexEntry}
    (ran : loadEntries fuel buf entries = .ok loaded)
    (located : ∀ hash entry, AssocMap.lookup hash entries = some entry → entry.segmentId < 2 ^ 16)
    : ∀ hash entry, AssocMap.lookup hash loaded = some entry → entry.segmentId < 2 ^ 16 := by
  induction fuel generalizing buf entries with
  | zero =>
    cases ran
    exact located
  | succ fuel ih =>
    simp only [loadEntries] at ran
    split at ran
    · split at ran
      · rename_i hash entry rest decoded
        refine ih ran fun other found here => ?_
        rw [AssocMap.lookup_insert] at here
        split at here
        · cases here
          exact IndexEntry.decode_located decoded
        · exact located other found here
      · simp at ran
    · cases ran
      exact located

def encodeLog (log : List (Hash × IndexEntry)) : Bytes :=
  log.flatMap fun (hash, entry) => IndexEntry.encode hash entry

def replay (log : List (Hash × IndexEntry)) (entries : AssocMap Hash IndexEntry)
    : AssocMap Hash IndexEntry :=
  log.foldl (fun entries (hash, entry) => AssocMap.insert hash entry entries) entries

theorem length_encodeLog (log : List (Hash × IndexEntry))
    : (encodeLog log).length = indexEntryLen * log.length := by
  induction log with
  | nil => rfl
  | cons pair rest ih =>
    have head := IndexEntry.length_encode pair.1 pair.2
    simp only [encodeLog, List.flatMap_cons, List.length_append, List.length_cons] at ih ⊢
    rw [ih, head, Nat.mul_add, Nat.mul_one, Nat.add_comm]

theorem encodeLog_concat (log : List (Hash × IndexEntry)) (hash : Hash) (entry : IndexEntry)
    : encodeLog (log ++ [(hash, entry)])
      = encodeLog log ++ IndexEntry.encode hash entry := by
  simp [encodeLog]

theorem replay_concat (log : List (Hash × IndexEntry)) (hash : Hash) (entry : IndexEntry)
    (entries : AssocMap Hash IndexEntry)
    : replay (log ++ [(hash, entry)]) entries
      = AssocMap.insert hash entry (replay log entries) := by
  simp [replay]

/-- Loading whole entries gives the map of the entries; a torn one at the end is ignored. -/
theorem loadEntries_encodeLog {log : List (Hash × IndexEntry)} {torn : Bytes} {fuel : Nat}
    (fits : ∀ pair ∈ log, pair.2.Fits) (short : torn.length < indexEntryLen)
    (enough : log.length ≤ fuel) (entries : AssocMap Hash IndexEntry)
    : loadEntries fuel (encodeLog log ++ torn) entries = .ok (replay log entries) := by
  induction log generalizing fuel entries with
  | nil =>
    cases fuel with
    | zero => rfl
    | succ fuel =>
      simp only [loadEntries, encodeLog, List.flatMap_nil, List.nil_append]
      rw [if_neg (by omega)]
      rfl
  | cons pair rest ih =>
    obtain ⟨hash, entry⟩ := pair
    cases fuel with
    | zero => simp at enough
    | succ fuel =>
      have width := IndexEntry.length_encode hash entry
      have whole : encodeLog ((hash, entry) :: rest) ++ torn
          = IndexEntry.encode hash entry ++ (encodeLog rest ++ torn) := by
        simp [encodeLog]
      have decoded := IndexEntry.decode_reads hash (fits (hash, entry) (by simp)) []
      rw [List.append_nil] at decoded
      simp only [loadEntries, whole]
      rw [if_pos (by rw [List.length_append, width]; omega), List.take_left' width, decoded,
        List.drop_left' width]
      exact ih (fun pair member => fits pair (by simp [member])) (by simpa using enough) _

def find (index : Index) (hash : Hash) : Option IndexEntry := AssocMap.lookup hash index.entries

def contains (index : Index) (hash : Hash) : Bool := AssocMap.contains index.entries hash

theorem open_meets {path : Path} {world : World} (formed : world.fs.WellFormed)
    (dirs : ∀ front, front <+: path.dropLast → world.fs.node front = some .dir)
    : Run.Meets
        (fun index next => FileSystem.Grows (fun other => other = path) world.fs next.fs
          ∧ world.Lives next
          ∧ next.fs.inodeAt path = some index.file
          ∧ (world.fs.node path = none → next.fs.content index.file = [])
          ∧ loadEntries (next.fs.content index.file).length (next.fs.content index.file) []
            = .ok index.entries)
        (fun _ _ => True)
        (open_ path world) := by
  rw [open_, Run.bind_of_ok (World.createDirAll_of_dirs dirs)]
  refine (World.openAppend_meets formed (dirs _ List.prefix_rfl)).bind ?_
  intro file next _ opened
  rw [Run.get_bind_apply]
  cases loaded : loadEntries (next.fs.content file).length (next.fs.content file) [] with
  | error error => trivial
  | ok entries => exact ⟨opened.1, opened.2.1, opened.2.2.1, opened.2.2.2, loaded⟩

theorem contains_eq_false {index : Index} {hash : Hash}
    : index.contains hash = false ↔ index.find hash = none := by
  simp [contains, find, AssocMap.contains]

def insert (index : Index) (hash : Hash) (entry : IndexEntry) : Run EpochsError World Index := do
  if index.contains hash then
    pure index
  else
    World.append index.file (IndexEntry.encode hash entry)
    pure { index with entries := AssocMap.insert hash entry index.entries }

theorem insert_meets (index : Index) {hash : Hash} (fresh : index.contains hash = false)
    (entry : IndexEntry) (world : World)
    : Run.Meets
        (fun after next =>
          after = { index with entries := AssocMap.insert hash entry index.entries }
          ∧ world.fs.Appended next.fs index.file (IndexEntry.encode hash entry)
          ∧ world.Lives next)
        (fun reason next => world.Killed reason
          ∧ ∃ torn, world.fs.Appended next.fs index.file torn ∧ torn.length < indexEntryLen)
        (index.insert hash entry world) := by
  simp only [insert, fresh, Bool.false_eq_true, if_false]
  refine Run.Meets.bind ((World.append_meets index.file (IndexEntry.encode hash entry) world).imp
    (fun _ _ appended => appended) ?_) fun _ next _ appended => ⟨rfl, appended⟩
  intro reason next killed
  obtain ⟨dying, written, appended, -, short⟩ := killed
  exact ⟨dying, written, appended, IndexEntry.length_encode hash entry ▸ short⟩

def hashes (index : Index) : List Hash := AssocMap.keys index.entries

/-- Indexed hashes whose hexadecimal form starts with the prefix, in any case of letters. -/
def findByPrefix (index : Index) (start : String) : List Hash :=
  index.hashes.filter fun hash =>
    (start.toList.map Char.toLower).isPrefixOf hash.toHex.toList

end Index
end Epochs
