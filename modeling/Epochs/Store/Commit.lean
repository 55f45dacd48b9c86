import Epochs.Core.Codec
import Epochs.Lib.SortedMap
import Epochs.Lib.Utf8

/-! Commits and their payload codec. The lengths of the parent list, the message, the index
map and its names are written in one or two bytes, so a longer one is narrowed.
-/

namespace Epochs

open Lib Decoder ByteDecoder

structure Commit where
  parents : List Hash
  rootHamt : Hash
  timestamp : Nat
  message : String
  indexRoots : SortedMap String Hash
  deriving DecidableEq

namespace Commit

def version : Nat := 2

def versionV1 : Nat := 1

def withIndexes (parents : List Hash) (rootHamt : Hash) (timestamp : Nat) (message : String)
    (indexRoots : SortedMap String Hash) : Commit :=
  { parents, rootHamt, timestamp, message, indexRoots }

def new (parents : List Hash) (rootHamt : Hash) (timestamp : Nat) (message : String) : Commit :=
  { parents, rootHamt, timestamp, message, indexRoots := SortedMap.empty }

def encodeIndexRoot (entry : String × Hash) : Bytes :=
  writeU16 (Utf8.encode entry.1).length ++ Utf8.encode entry.1 ++ writeHash entry.2

def encodePayload (commit : Commit) : Bytes :=
  writeU8 version
    ++ (writeU8 commit.parents.length
    ++ (commit.parents.flatMap writeHash
    ++ (writeHash commit.rootHamt
    ++ (writeU64 commit.timestamp
    ++ (writeU16 (Utf8.encode commit.message).length
    ++ (Utf8.encode commit.message
    ++ (writeU16 commit.indexRoots.size
    ++ commit.indexRoots.entries.flatMap encodeIndexRoot)))))))

/-- The length of the payload of a commit without secondary indexes. -/
theorem length_encodePayload_new (parents : List Hash) (rootHamt : Hash) (timestamp : Nat)
    (message : String)
    : (new parents rootHamt timestamp message).encodePayload.length
      = 46 + 32 * parents.length + (Utf8.encode message).length := by
  have hashes : (parents.flatMap writeHash).length = 32 * parents.length := by
    rw [List.length_flatMap, List.map_congr_left fun hash _ => length_writeHash hash]
    simp [Nat.mul_comm]
  simp only [encodePayload, new, List.length_append, length_writeU8, length_writeU16,
    length_writeU64, length_writeHash, hashes, SortedMap.empty, List.flatMap_nil, List.length_nil]
  omega

def text (field : String) (bytes : Bytes) : Except EpochsError String :=
  match Utf8.decode bytes with
  | some text => .ok text
  | none =>
    let reason := (Utf8.error? bytes).getD ""
    .error (.codec s!"{field} not valid utf-8: {reason}")

def readIndexRoot : ByteDecoder (String × Hash) := do
  let nameLen ← readU16
  let nameBytes ← readSlice nameLen
  let name ← convert (text "index root name" nameBytes)
  let hash ← readHash
  pure (name, hash)

/-- The layout of the index map. A name that occurs again replaces the earlier root. -/
def readIndexRoots : ByteDecoder (SortedMap String Hash) := do
  let count ← readU16
  let entries ← readIndexRoot.many count
  pure (SortedMap.empty.insertAll entries)

def readIndexRootsOf (found : Nat) : ByteDecoder (SortedMap String Hash) :=
  if version ≤ found then readIndexRoots else pure SortedMap.empty

def readCommit : ByteDecoder Commit := do
  let found ← readU8
  ensure (found = version ∨ found = versionV1)
    (.codec s!"unsupported commit version: {found}")
  let parentCount ← readU8
  let parents ← readHash.many parentCount
  let rootHamt ← readHash
  let timestamp ← readU64
  let msgLen ← readU16
  let msgBytes ← readSlice msgLen
  let message ← convert (text "commit message" msgBytes)
  let indexRoots ← readIndexRootsOf found
  pure { parents, rootHamt, timestamp, message, indexRoots }

/-- Decode payload bytes of either version. Trailing bytes are ignored. -/
def decodePayload (buf : Bytes) : Except EpochsError Commit := (readCommit buf).map Prod.fst

def id [Blake3] (commit : Commit) : Hash := Hash.ofBytes commit.encodePayload

-- The payloads that are accepted

theorem text_encode (field message : String) : text field (Utf8.encode message) = .ok message := by
  rw [text, Utf8.decode_encode]

theorem text_eq_ok {field message : String} {bytes : Bytes} (valid : text field bytes = .ok message)
    : Utf8.encode message = bytes := by
  unfold text at valid
  split at valid
  · rename_i decoded
    cases valid
    exact Utf8.encode_of_decode decoded
  · cases valid

/-- What an accepted payload says, field by field. The index entries are those of the payload,
in its order and with its repetitions; the earlier version has none.
-/
structure Layout where
  version : Nat
  parents : List Hash
  rootHamt : Hash
  timestamp : Nat
  message : String
  entries : List (String × Hash)

namespace Layout

def encodeIndexes (layout : Layout) : Bytes :=
  if Commit.version ≤ layout.version then
    writeU16 layout.entries.length ++ layout.entries.flatMap encodeIndexRoot
  else
    []

def encode (layout : Layout) : Bytes :=
  writeU8 layout.version
    ++ (writeU8 layout.parents.length
    ++ (layout.parents.flatMap writeHash
    ++ (writeHash layout.rootHamt
    ++ (writeU64 layout.timestamp
    ++ (writeU16 (Utf8.encode layout.message).length
    ++ (Utf8.encode layout.message
    ++ layout.encodeIndexes))))))

structure Fits (layout : Layout) : Prop where
  version : layout.version = Commit.version
    ∨ (layout.version = versionV1 ∧ layout.entries = [])
  parents : layout.parents.length < 256
  timestamp : layout.timestamp < 2 ^ 64
  message : (Utf8.encode layout.message).length < 65536
  indexes : layout.entries.length < 65536
  names : ∀ entry ∈ layout.entries, (Utf8.encode entry.1).length < 65536

def commit (layout : Layout) : Commit :=
  { parents := layout.parents
    rootHamt := layout.rootHamt
    timestamp := layout.timestamp
    message := layout.message
    indexRoots := SortedMap.empty.insertAll layout.entries }

def ofCommit (commit : Commit) : Layout :=
  { version := Commit.version
    parents := commit.parents
    rootHamt := commit.rootHamt
    timestamp := commit.timestamp
    message := commit.message
    entries := commit.indexRoots.entries }

theorem encode_ofCommit (commit : Commit) : (ofCommit commit).encode = commit.encodePayload := rfl

theorem commit_ofCommit (commit : Commit) : (ofCommit commit).commit = commit := by
  cases commit
  simp [Layout.commit, ofCommit, SortedMap.insertAll_entries]

end Layout

theorem readU16_reads_of_lt {value : Nat} (fits : value < 65536)
    : Reads readU16 (writeU16 value) value := by
  have reads := readU16_reads value
  rwa [Nat.mod_eq_of_lt fits] at reads

theorem readIndexRoot_reads {entry : String × Hash} (fits : (Utf8.encode entry.1).length < 65536)
    : Reads readIndexRoot (encodeIndexRoot entry) entry := by
  unfold readIndexRoot encodeIndexRoot
  rw [List.append_assoc]
  refine (readU16_reads_of_lt fits).bind ?_
  refine (readSlice_reads (Utf8.encode entry.1)).bind ?_
  refine Reads.convert (text_encode _ _) ?_
  exact (readHash_reads entry.2).result

theorem readIndexRoot_inverts
    : Inverts readIndexRoot encodeIndexRoot fun entry => (Utf8.encode entry.1).length < 65536 := by
  intro source entry rest decoded
  simp only [readIndexRoot, bind_eq_ok, readSlice_eq_ok, convert_eq_ok] at decoded
  obtain ⟨nameLen, _, lengthRead, nameBytes, _, ⟨rfl, rfl⟩, name, _, ⟨valid, rfl⟩, hash, _, hashRead,
    same⟩ := decoded
  simp only [pure_apply, Except.ok.injEq, Prod.mk.injEq] at same
  obtain ⟨rfl, rfl⟩ := same
  obtain ⟨rfl, bounded⟩ := readUint_inverts 2 _ _ _ lengthRead
  rw [readHash_eq_ok.mp hashRead]
  have encoded := text_eq_ok valid
  subst encoded
  exact ⟨by simp [encodeIndexRoot, writeU16, writeHash], bounded⟩

/-- The index map of a layout is read back. -/
theorem readIndexRootsOf_reads {layout : Layout} (fits : layout.Fits)
    : Reads (readIndexRootsOf layout.version) layout.encodeIndexes layout.commit.indexRoots := by
  unfold readIndexRootsOf Layout.encodeIndexes
  rcases fits.version with current | ⟨earlier, none⟩
  · rw [current, if_pos (Nat.le_refl _), if_pos (Nat.le_refl _)]
    refine (readU16_reads_of_lt fits.indexes).bind ?_
    exact (Reads.many fun entry member => readIndexRoot_reads (fits.names entry member)).result
  · rw [earlier, if_neg (by decide), if_neg (by decide), Layout.commit, none]
    exact Reads.pure _

/-- The payload of a layout is read as its commit, whatever bytes follow. -/
theorem Layout.reads {layout : Layout} (fits : layout.Fits)
    : Reads readCommit layout.encode layout.commit := by
  have known : layout.version = Commit.version ∨ layout.version = versionV1 :=
    fits.version.imp_right And.left
  have versionRead := readU8_reads layout.version
  rw [Nat.mod_eq_of_lt (by rcases known with is | is <;> rw [is] <;> decide)] at versionRead
  have countRead := readU8_reads layout.parents.length
  rw [Nat.mod_eq_of_lt fits.parents] at countRead
  have timeRead := readU64_reads layout.timestamp
  rw [Nat.mod_eq_of_lt fits.timestamp] at timeRead
  unfold readCommit Layout.encode
  refine versionRead.bind (Reads.ensure known ?_)
  refine countRead.bind ?_
  refine (Reads.many fun hash _ => readHash_reads hash).bind ?_
  refine (readHash_reads layout.rootHamt).bind ?_
  refine timeRead.bind ?_
  refine (readU16_reads_of_lt fits.message).bind ?_
  refine (readSlice_reads (Utf8.encode layout.message)).bind ?_
  refine Reads.convert (text_encode _ _) ?_
  exact (readIndexRootsOf_reads fits).result

/-- The index map of an accepted payload has a layout. -/
theorem readIndexRootsOf_eq_ok {found : Nat} {source rest : Bytes}
    {indexRoots : SortedMap String Hash} (known : found = version ∨ found = versionV1)
    (decoded : readIndexRootsOf found source = .ok (indexRoots, rest))
    : ∃ entries,
        indexRoots = SortedMap.empty.insertAll entries
        ∧ (found = version ∨ (found = versionV1 ∧ entries = []))
        ∧ entries.length < 65536
        ∧ (∀ entry ∈ entries, (Utf8.encode entry.1).length < 65536)
        ∧ source
          = (if version ≤ found then writeU16 entries.length ++ entries.flatMap encodeIndexRoot
              else []) ++ rest := by
  rcases known with rfl | rfl
  · simp only [readIndexRootsOf, Nat.le_refl, if_true, readIndexRoots, bind_eq_ok] at decoded
    obtain ⟨count, _, countRead, entries, _, entriesRead, same⟩ := decoded
    simp only [pure_apply, Except.ok.injEq, Prod.mk.injEq] at same
    obtain ⟨rfl, rfl⟩ := same
    obtain ⟨rfl, bounded⟩ := readUint_inverts 2 _ _ _ countRead
    obtain ⟨rfl, rfl, names⟩ := readIndexRoot_inverts.many _ _ _ _ entriesRead
    exact ⟨entries, rfl, .inl rfl, bounded, names, by simp [writeU16]⟩
  · rw [readIndexRootsOf, if_neg (by decide), pure_apply] at decoded
    simp only [Except.ok.injEq, Prod.mk.injEq] at decoded
    obtain ⟨rfl, rfl⟩ := decoded
    exact ⟨[], rfl, .inr ⟨rfl, rfl⟩, by decide, by simp, by rw [if_neg (by decide)]; rfl⟩

variable {commit : Commit}

/-- An accepted payload is that of a layout, with bytes after it that are ignored. -/
theorem exists_layout {payload rest : Bytes}
    (read : readCommit payload = .ok (commit, rest))
    : ∃ layout : Layout,
        layout.Fits ∧ payload = layout.encode ++ rest ∧ commit = layout.commit := by
  simp only [readCommit, bind_eq_ok, readSlice_eq_ok, convert_eq_ok, ensure_eq_ok] at read
  obtain ⟨found, _, versionRead, _, _, ⟨known, rfl⟩, parentCount, _, countRead, parents, _,
    parentsRead, rootHamt, _, rootRead, timestamp, _, timeRead, msgLen, _, lengthRead, msgBytes, _,
    ⟨rfl, rfl⟩, message, _, ⟨valid, rfl⟩, indexRoots, _, indexesRead, same⟩ := read
  simp only [pure_apply, Except.ok.injEq, Prod.mk.injEq] at same
  obtain ⟨rfl, rfl⟩ := same
  obtain ⟨rfl, -⟩ := readUint_inverts 1 _ _ _ versionRead
  obtain ⟨rfl, fewParents⟩ := readUint_inverts 1 _ _ _ countRead
  obtain ⟨rfl, rfl, -⟩ := readHash_inverts.many _ _ _ _ parentsRead
  cases readHash_eq_ok.mp rootRead
  obtain ⟨rfl, shortTime⟩ := readUint_inverts 8 _ _ _ timeRead
  obtain ⟨rfl, shortMessage⟩ := readUint_inverts 2 _ _ _ lengthRead
  have encoded := text_eq_ok valid
  subst encoded
  obtain ⟨entries, rfl, versions, few, names, rfl⟩ := readIndexRootsOf_eq_ok known indexesRead
  refine ⟨⟨found, parents, rootHamt, timestamp, message, entries⟩,
    ⟨versions, fewParents, shortTime, shortMessage, few, names⟩, ?_, rfl⟩
  simp [Layout.encode, Layout.encodeIndexes, writeU8, writeU16, writeU64, writeHash]

/-- Exactly the payloads of layouts are accepted, whatever bytes follow. -/
theorem decodePayload_eq_ok {payload : Bytes}
    : decodePayload payload = .ok commit
      ↔ ∃ (layout : Layout) (rest : Bytes),
          layout.Fits ∧ payload = layout.encode ++ rest ∧ commit = layout.commit := by
  constructor
  · intro decoded
    unfold decodePayload at decoded
    cases outcome : readCommit payload with
    | error error => simp [outcome, Except.map] at decoded
    | ok found =>
      obtain ⟨read, rest⟩ := found
      simp only [outcome, Except.map, Except.ok.injEq] at decoded
      subst decoded
      obtain ⟨layout, fits, split, same⟩ := exists_layout outcome
      exact ⟨layout, rest, fits, split, same⟩
  · rintro ⟨layout, rest, fits, rfl, rfl⟩
    rw [decodePayload, Layout.reads fits rest]
    rfl

-- Which commits are read back

structure Fits (commit : Commit) : Prop where
  parents : commit.parents.length < 256
  timestamp : commit.timestamp < 2 ^ 64
  message : (Utf8.encode commit.message).length < 65536
  indexes : commit.indexRoots.size < 65536
  names : ∀ entry ∈ commit.indexRoots.entries, (Utf8.encode entry.1).length < 65536

theorem Fits.layout (fits : commit.Fits) : (Layout.ofCommit commit).Fits :=
  ⟨.inl rfl, fits.parents, fits.timestamp, fits.message, fits.indexes, fits.names⟩

theorem decodePayload_encodePayload (fits : commit.Fits)
    : decodePayload commit.encodePayload = .ok commit :=
  decodePayload_eq_ok.mpr ⟨.ofCommit commit, [], fits.layout,
    by rw [Layout.encode_ofCommit, List.append_nil], (Layout.commit_ofCommit commit).symm⟩

/-- Every commit that is decoded has lengths that fit. -/
theorem fits_of_decodePayload {buf : Bytes}
    (decoded : decodePayload buf = .ok commit)
    : commit.Fits := by
  obtain ⟨layout, rest, fits, -, rfl⟩ := decodePayload_eq_ok.mp decoded
  refine ⟨fits.parents, fits.timestamp, fits.message, ?_, fun entry member => ?_⟩
  · have size := SortedMap.size_insertAll_le SortedMap.empty layout.entries
    have few := fits.indexes
    simp only [SortedMap.size, SortedMap.empty, List.length_nil, Layout.commit] at size ⊢
    omega
  · rcases SortedMap.mem_insertAll member with none | written
    · simp [SortedMap.empty] at none
    · exact fits.names entry written

end Commit
end Epochs
