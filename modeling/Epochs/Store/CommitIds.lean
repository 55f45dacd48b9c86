import Epochs.Core.Blake3
import Epochs.Store.Commit

/-! Commit ids as content addresses. The id of a commit is the hash of its encoding, which
always has the current layout with ordered names and nothing after it; the decoder accepts more.
-/

namespace Epochs.Commit

open Lib Decoder

-- Re-encoding an accepted payload

def Layout.Ordered (layout : Layout) : Prop :=
  layout.entries.Pairwise fun first second => first.1 < second.1

/-- A layout in the current version with ordered names is the one its commit is written in. -/
theorem Layout.ofCommit_commit {layout : Layout} (current : layout.version = Commit.version)
    (ordered : layout.Ordered)
    : ofCommit layout.commit = layout := by
  have entries : layout.commit.indexRoots.entries = layout.entries :=
    SortedMap.entries_insertAll (by rwa [SortedMap.empty, List.nil_append])
  cases layout
  simp only [ofCommit, Layout.commit] at entries current ⊢
  rw [entries, current]

/-- The first byte of a payload is its version. -/
theorem Layout.head_encode (layout : Layout) (rest : Bytes)
    : (layout.encode ++ rest).head? = some (UInt8.ofNat layout.version) := by
  simp [Layout.encode, writeU8, leBytes]

/-- Two lists of entries with the same bytes are the same. -/
theorem entries_eq_of_bytes {first second : List (String × Hash)}
    (few : first.length < 65536) (fewer : second.length < 65536)
    (names : ∀ entry ∈ first, (Utf8.encode entry.1).length < 65536)
    (otherNames : ∀ entry ∈ second, (Utf8.encode entry.1).length < 65536)
    (same : writeU16 first.length ++ first.flatMap encodeIndexRoot
      = writeU16 second.length ++ second.flatMap encodeIndexRoot)
    : first = second := by
  have counts := List.append_inj same (by rw [length_writeU16, length_writeU16])
  have lengths : first.length = second.length := by
    have numbers := congrArg leNat counts.1
    rwa [writeU16, writeU16, leNat_leBytes_of_lt few, leNat_leBytes_of_lt fewer] at numbers
  have one := Reads.many (fun entry member => readIndexRoot_reads (names entry member)) []
  have two := Reads.many (fun entry member => readIndexRoot_reads (otherNames entry member)) []
  rw [counts.2, lengths, two] at one
  simpa using one.symm

/-- An accepted payload is what its commit is encoded as exactly if it has the current version,
ordered names and nothing after them.
-/
theorem Layout.encodePayload_eq_iff {layout : Layout} (fits : layout.Fits) (rest : Bytes)
    : layout.commit.encodePayload = layout.encode ++ rest
      ↔ layout.version = Commit.version ∧ layout.Ordered ∧ rest = [] := by
  constructor
  · intro same
    have commitFits : layout.commit.Fits :=
      fits_of_decodePayload (decodePayload_eq_ok.mpr ⟨layout, rest, fits, rfl, rfl⟩)
    -- Both readings of the payload leave the same rest.
    have read := Layout.reads fits rest
    have again := Layout.reads commitFits.layout []
    rw [encode_ofCommit, commit_ofCommit, List.append_nil, same, read] at again
    have nothing : rest = [] := by simpa using again
    have current : layout.version = Commit.version := by
      rcases fits.version with current | ⟨earlier, -⟩
      · exact current
      · have head := layout.head_encode rest
        have written := (ofCommit layout.commit).head_encode []
        rw [encode_ofCommit, List.append_nil, same, head, earlier] at written
        simp [ofCommit, versionV1, Commit.version] at written
    have indexes : (ofCommit layout.commit).encodeIndexes = layout.encodeIndexes := by
      rw [nothing, List.append_nil, ← encode_ofCommit] at same
      simpa [Layout.encode, ofCommit, Layout.commit, current] using same
    simp only [encodeIndexes, current, ofCommit, Nat.le_refl, if_true] at indexes
    have entries := entries_eq_of_bytes commitFits.indexes fits.indexes commitFits.names
      fits.names indexes
    have sorted := layout.commit.indexRoots.sorted
    rw [entries] at sorted
    exact ⟨current, sorted, nothing⟩
  · rintro ⟨current, ordered, rfl⟩
    rw [← encode_ofCommit, ofCommit_commit current ordered, List.append_nil]

-- Prefixes

theorem readCommit_exact : Exact readCommit := by
  intro payload commit rest read
  obtain ⟨layout, fits, split, rfl⟩ := exists_layout read
  exact ⟨layout.encode, split, layout.reads fits⟩

theorem readCommit_reads {commit : Commit} (fits : commit.Fits)
    : Reads readCommit commit.encodePayload commit := by
  have reads := Layout.reads fits.layout
  rwa [Layout.encode_ofCommit, Layout.commit_ofCommit] at reads

/-- The encoding of a commit is read back, no proper prefix of it is accepted, and it is no proper
prefix of the encoding of another.
-/
theorem encodePayload_uniquely_decodable {commit : Commit} (fits : commit.Fits)
    : decodePayload commit.encodePayload = .ok commit
      ∧ (∀ front, front <+: commit.encodePayload → front ≠ commit.encodePayload
        → ∃ error, decodePayload front = .error error)
      ∧ ∀ other : Commit, other.Fits → commit.encodePayload <+: other.encodePayload
        → commit = other := by
  refine ⟨decodePayload_encodePayload fits, fun front isPrefix shorter => ?_,
    fun other otherFits isPrefix => ?_⟩
  · obtain ⟨error, rejected⟩ :=
      readCommit_exact.rejects_isPrefix (readCommit_reads fits) isPrefix shorter
    exact ⟨error, by rw [decodePayload, rejected]; rfl⟩
  · exact ((readCommit_reads fits).eq_of_isPrefix (readCommit_reads otherFits) isPrefix).2

def mergeCommit : Commit :=
  withIndexes [Hash.zero, Hash.zero] Hash.zero 7 "merge" (SortedMap.empty.insert "by_id" Hash.zero)

theorem encodePayload_uniquely_decodable_merge
    : mergeCommit.Fits ∧ decodePayload mergeCommit.encodePayload = .ok mergeCommit
      ∧ ∃ error, decodePayload (mergeCommit.encodePayload.take 10) = .error error := by
  have decoded : decodePayload mergeCommit.encodePayload = .ok mergeCommit := by decide +kernel
  have fits := fits_of_decodePayload decoded
  obtain ⟨reads, rejects, -⟩ := encodePayload_uniquely_decodable fits
  exact ⟨fits, reads, rejects _ (List.take_prefix 10 _) (by decide +kernel)⟩

-- Ids

/-- The accepted payloads are the layouts with any bytes after them; and the id of the commit
read from one is the hash of the payload exactly if the layout is the current one, its names
strictly increase and nothing follows, provided the hash does not collide on the payload and
the commit's encoding.
-/
theorem id_eq_ofBytes_iff [Blake3] {payload : Bytes} {commit : Commit}
    (decoded : decodePayload payload = .ok commit)
    (apart : Hash.ofBytes commit.encodePayload = Hash.ofBytes payload
      → commit.encodePayload = payload)
    : (∃ (layout : Layout) (rest : Bytes), layout.Fits ∧ payload = layout.encode ++ rest)
      ∧ ∀ (layout : Layout) (rest : Bytes), layout.Fits → payload = layout.encode ++ rest
        → (commit.id = Hash.ofBytes payload
            ↔ layout.version = Commit.version ∧ layout.Ordered ∧ rest = []) := by
  obtain ⟨found, after, foundFits, split, -⟩ := decodePayload_eq_ok.mp decoded
  refine ⟨⟨found, after, foundFits, split⟩, fun layout rest fits is => ?_⟩
  have read := decodePayload_eq_ok.mpr ⟨layout, rest, fits, is, rfl⟩
  rw [decoded, Except.ok.injEq] at read
  subst read
  rw [← Layout.encodePayload_eq_iff fits rest, ← is]
  exact ⟨apart, fun same => by rw [id, same]⟩

def earlierPayload : Bytes :=
  Layout.encode ⟨versionV1, [], Hash.zero, 99, "old", []⟩

def plainPayload : Bytes := (new [] Hash.zero 1 "hi").encodePayload

section Linked

attribute [local instance] Blake3.linked

/-- The id of a payload the encoder wrote is its hash. -/
theorem id_eq_ofBytes_iff_plain
    : decodePayload plainPayload = .ok (new [] Hash.zero 1 "hi")
      ∧ (new [] Hash.zero 1 "hi").id = Hash.ofBytes plainPayload := by
  have decoded : decodePayload plainPayload = .ok (new [] Hash.zero 1 "hi") := by decide
  have fits := (fits_of_decodePayload decoded).layout
  have iff := (id_eq_ofBytes_iff decoded fun _ => rfl).2 _ [] fits (by simp [plainPayload, Layout.encode_ofCommit])
  exact ⟨decoded, iff.mpr ⟨rfl, List.Pairwise.nil, rfl⟩⟩

/-- A payload of the earlier version has another id than its hash. -/
theorem id_ne_ofBytes_earlier
    : ∃ commit,
        decodePayload earlierPayload = .ok commit
        ∧ commit.id ≠ Hash.ofBytes earlierPayload := by
  refine ⟨new [] Hash.zero 99 "old", by decide, ?_⟩
  decide +kernel

end Linked

end Epochs.Commit
