import Epochs.Disk.Recovery

/-! A read is verified against the header of the record it finds, and against nothing else: it
returns the payload of the hash it was asked for exactly when that header names the hash.
-/

namespace Epochs

open Lib

namespace CasDisk

section Verified

variable [Blake3] {disk : CasDisk}

def HeaderNames (disk : CasDisk) (hash : Hash) : Prop :=
  ∀ entry, disk.cas.index.find hash = some entry
    → recordAt (disk.segmentBytes entry.segmentId) entry ≠ none
    → ((World.slice (disk.segmentBytes entry.segmentId) entry.offset entry.recordLen).drop 9).take 32
      = hash.bytes

/-- A record's payload hashes to what its header says, so to a given hash exactly if the header
names that hash.
-/
theorem recordAt_verified {bytes : Bytes} {entry : IndexEntry} {record : RecordType × Bytes}
    (found : recordAt bytes entry = some record) (hash : Hash)
    : Hash.ofBytes record.2 = hash
      ↔ ((World.slice bytes entry.offset entry.recordLen).drop 9).take 32 = hash.bytes := by
  unfold recordAt at found
  split at found
  · cases decoded : decodeRecord (World.slice bytes entry.offset entry.recordLen) with
    | error error => simp [decoded] at found
    | ok whole =>
      obtain ⟨hashed, header⟩ := decodeRecord_verified decoded
      simp only [decoded, Option.some.injEq] at found
      subst found
      rw [header]
      constructor
      · intro same
        rw [← same, hashed]
      · intro same
        rw [hashed]
        cases hash
        cases contents : whole.contentHash
        rw [contents] at same
        simpa using same
  · simp at found

/-- On a store that agrees with its files and caches nothing, whatever the index and the files
hold, every payload a read returns has the hash that was asked for exactly if the header of
the record the index locates names that hash.
-/
theorem getPayload_verified_iff (attached : disk.Attached) (alive : disk.world.deadline = none)
    (cold : ∀ hash, disk.cas.writeCache.get hash = none) (hash : Hash)
    : (∀ recordType payload next,
        getPayload hash disk = .ok (recordType, payload) next → Hash.ofBytes payload = hash)
      ↔ disk.HeaderNames hash := by
  have consistent : disk.Consistent := ⟨attached, fun other record found => by simp [cold] at found⟩
  have reads (record : RecordType × Bytes) := @getPayload_eq_ok disk _ consistent alive hash record
  constructor
  · intro verified entry found here
    obtain ⟨record, here⟩ := Option.ne_none_iff_exists'.mp here
    have held : disk.view hash = some record := by rw [view, found, Option.bind_some, here]
    obtain ⟨next, ran⟩ := (reads record).mpr held
    rw [← recordAt_verified here]
    exact verified record.1 record.2 next ran
  · intro named recordType payload next ran
    have held := (reads (recordType, payload)).mp ⟨next, ran⟩
    obtain ⟨entry, found, here⟩ := Option.bind_eq_some_iff.mp held
    exact (recordAt_verified here hash).mpr (named entry found (by simp [here]))

end Verified

-- A location taken by another record

section Linked

attribute [local instance] Blake3.linked

theorem getPayload_verified_iff_recovered
    : (∀ recordType payload next,
        getPayload (Hash.ofBytes [1]) recovered = .ok (recordType, payload) next
        → Hash.ofBytes payload = Hash.ofBytes [1])
      ↔ recovered.HeaderNames (Hash.ofBytes [1]) :=
  getPayload_verified_iff valid_recovered.1.1.toAttached valid_recovered.1.2 valid_recovered.2 _

def overwritten : CasDisk := Run.stateOf (put .hamtLeaf [3] recovered)

/-- A read of the lost payload's hash returns the payload that took its place in the segment. -/
theorem getPayload_unverified
    : Run.valueOf (getPayload (Hash.ofBytes [2]) (overwritten.cold 1)) = some (.hamtLeaf, [3])
      ∧ Hash.ofBytes [3] ≠ Hash.ofBytes [2] := by
  decide +kernel

end Linked
end CasDisk
end Epochs
