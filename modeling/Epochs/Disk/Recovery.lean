import Epochs.Disk.Refinement

/-! Recovery after a kill. A write puts the index entry into its file at once and the record
into a buffer, so a kill may leave an entry whose record is lost; the next process trusts the
entry. A write after recovery is honest exactly when no such entry names its payload.
-/

namespace Epochs

open Lib

def CasCall.Writes : CasCall → Prop
  | .put _ _ => True
  | .flush => True
  | _ => False

namespace CasDisk

section Recovery

variable [Blake3] {disk : CasDisk}

-- What a kill leaves

def HoldsOnly (property : Bytes → Prop) (disk : CasDisk) : Prop :=
  disk.Clean ∧ ∀ hash record, disk.view hash = some record → property record.2

def Remains (property : Bytes → Prop) (repoPath : Path) (fs : FileSystem) : Prop :=
  ∃ before : CasDisk, HoldsOnly property before ∧ before.cas.repoPath = repoPath ∧ before.Cut fs

variable {property : Bytes → Prop}

theorem Keeps.holdsOnly {before after : CasDisk}
    (keeps : Keeps before after) (holds : HoldsOnly property before) (attached : after.Attached)
    : HoldsOnly property after := by
  refine ⟨keeps.clean holds.1 attached, ?_⟩
  rw [keeps.view holds.1.toAttached]
  exact holds.2

def WritesOnly (property : Bytes → Prop) : CasCall → Prop
  | .put _ payload => property payload
  | _ => True

/-- One writing call, killed or not. -/
theorem call_remains (holds : HoldsOnly property disk) {call : CasCall}
    (writes : call.Writes) (fits : call.Fits) (only : WritesOnly property call)
    : Run.Meets
        (fun _ next => HoldsOnly property next ∧ next.cas.repoPath = disk.cas.repoPath)
        (fun _ next => disk.Cut next.fs)
        (CasDisk.call call disk) := by
  have clean := holds.1
  cases call with
  | put recordType payload =>
    have small : payload.length + 45 < 2 ^ 32 := by
      simp only [CasCall.Fits] at fits
      omega
    cases found : disk.cas.index.find (Hash.ofBytes payload) with
    | some entry =>
      have present : disk.cas.index.contains (Hash.ofBytes payload) = true := by
        rw [Index.find] at found
        simp [Index.contains, AssocMap.contains, found]
      rw [CasDisk.call, Run.map_apply,
        Run.observe_of_ok (put_of_contains present recordType)]
      exact ⟨holds, rfl⟩
    | none =>
      refine Run.Meets.map ((put_meets clean.toAttached recordType small
        (Index.contains_eq_false.mpr found)).observe ?_ ?_ ?_)
      · rintro hash next ⟨-, attached, entry, stores⟩
        refine ⟨⟨stores.clean clean attached found, fun other record held => ?_⟩,
          stores.repoPath⟩
        rw [stores.view_eq_add clean.toAttached clean.honest found] at held
        rcases View.add_cases held with old | ⟨-, rfl⟩
        · exact holds.2 other record old
        · exact only
      · rintro error next (halts | ⟨-, -, attached, keeps⟩)
        · simp [Halts, World.Killed] at halts
        · exact ⟨keeps.holdsOnly holds attached, keeps.repoPath⟩
      · rintro reason next other (halts | refuses)
        · exact halts.2
        · exact absurd refuses.1 (other _)
  | flush =>
    refine Run.Meets.map ((flush_meets clean.toAttached).observe ?_ ?_ ?_)
    · rintro _ next ⟨attached, keeps, -⟩
      exact ⟨keeps.holdsOnly holds attached, keeps.repoPath⟩
    · intro error next halts
      simp [Halts, World.Killed] at halts
    · intro reason next other halts
      exact halts.2
  | getRecord hash => exact writes.elim
  | setObjectCacheCap cap => exact writes.elim
  | setMmapCap cap => exact writes.elim
  | reopen => exact writes.elim

/-- A run of writing calls, killed in the middle of a call or after the last one. -/
theorem calls_remain (holds : HoldsOnly property disk)
    {calls : List CasCall}
    (each : ∀ call ∈ calls, call.Writes ∧ call.Fits ∧ WritesOnly property call)
    : Remains property disk.cas.repoPath (Run.stateOf (calls.mapM CasDisk.call disk)).fs := by
  induction calls generalizing disk with
  | nil => exact ⟨disk, holds, rfl, holds.1.toAttached.cut_self⟩
  | cons call rest ih =>
    obtain ⟨writes, fits, only⟩ := each call (by simp)
    have meets := call_remains holds writes fits only
    cases outcome : CasDisk.call call disk with
    | ok reply next =>
      rw [outcome] at meets
      rw [Run.stateOf_mapM_cons outcome, ← meets.2]
      exact ih meets.1 fun other member => each other (by simp [member])
    | error reason next =>
      rw [outcome] at meets
      rw [List.mapM_cons, Run.bind_of_error outcome]
      exact ⟨disk, holds, rfl, meets⟩

-- The store opened on what is left

section Opened

variable {property : Bytes → Prop} {before : CasDisk} {fs : FileSystem}
  (clean : before.Clean) (cut : before.Cut fs) (opens : Opens fs before.cas.repoPath disk)

omit [Blake3] in
include cut opens in
/-- The next process sees the files of the killed one. -/
theorem Cut.opened {path : Path} {inode : Nat} (found : before.fs.inodeAt path = some inode)
    : disk.fs.inodeAt path = some inode ∧ disk.fs.content inode = fs.content inode :=
  ⟨opens.grows.inodeAt (cut.kept path inode found),
    opens.grows.contents path inode (cut.kept path inode found)⟩

include clean cut opens

/-- The next process has all index entries of the killed one, and no others. -/
theorem Cut.find_eq (hash : Hash) : disk.cas.index.find hash = before.cas.index.find hash := by
  obtain ⟨log, bytes, entries, fits⟩ := clean.log
  obtain ⟨torn, short, left⟩ := cut.torn
  obtain ⟨indexed, contents⟩ := cut.opened opens clean.indexed
  have sameFile : disk.cas.index.file = before.cas.index.file := by
    have here := opens.attached.indexed
    rw [indexPath, opens.repoPath] at here
    exact Option.some.inj (here.symm.trans indexed)
  have content : disk.indexBytes = Index.encodeLog log ++ torn := by
    rw [indexBytes, sameFile, contents, left, bytes]
  have enough : log.length ≤ disk.indexBytes.length := by
    rw [content, List.length_append, Index.length_encodeLog, indexEntryLen]
    omega
  have loaded := opens.loaded
  rw [content] at loaded enough
  rw [Index.loadEntries_encodeLog fits short enough] at loaded
  rw [Index.find, Index.find, entries, Except.ok.inj loaded]

omit cut opens in
/-- An indexed record lies in a file. -/
theorem Clean.segment_exists {hash : Hash} {record : RecordType × Bytes} {entry : IndexEntry}
    (found : before.cas.index.find hash = some entry) (held : before.view hash = some record)
    : ∃ inode, before.fs.inodeAt (before.segmentPath entry.segmentId) = some inode := by
  by_cases current : entry.segmentId = before.cas.currentSegmentId
  · exact ⟨_, current ▸ clean.active⟩
  · cases file : before.fs.inodeAt (before.segmentPath entry.segmentId) with
    | some inode => exact ⟨inode, rfl⟩
    | none =>
      rw [view, found, Option.bind_some, segmentBytes_of_none current file, recordAt_nil] at held
      simp at held

/-- The next process finds the records of the killed one that lie inside what is left of their
segments, and no others.
-/
theorem Cut.view_eq {hash : Hash} {record : RecordType × Bytes} {entry : IndexEntry}
    (found : before.cas.index.find hash = some entry) (held : before.view hash = some record)
    : disk.view hash
      = if entry.offset + entry.recordLen ≤ (disk.segmentBytes entry.segmentId).length then
          some record
        else
          none := by
  rw [view, cut.find_eq clean opens hash, found, Option.bind_some]
  split
  · rename_i inside
    have small := clean.located hash entry found
    obtain ⟨inode, file⟩ := clean.segment_exists found held
    obtain ⟨ideal, extends_, parts⟩ := cut.segments
    obtain ⟨stillThere, contents⟩ := cut.opened opens file
    have part : disk.segmentBytes entry.segmentId <+: ideal entry.segmentId := by
      have here : disk.fs.inodeAt (disk.segmentPath entry.segmentId) = some inode := by
        rw [segmentPath, opens.repoPath]
        exact stillThere
      rw [← opens.attached.content_eq (fun _ => opens.buffer) here, contents]
      exact parts _ small inode (cut.kept _ _ file)
    rw [view, found, Option.bind_some] at held
    rw [← recordAt_of_isPrefix part inside]
    exact recordAt_mono (extends_ _ small) held
  · rename_i outside
    exact recordAt_of_short outside

end Opened

-- Writes after recovery

/-- The record of the index entry for a hash, if there is one, lies inside its segment. -/
def Covers (disk : CasDisk) (hash : Hash) : Prop :=
  ∀ entry, disk.cas.index.find hash = some entry
    → entry.offset + entry.recordLen ≤ (disk.segmentBytes entry.segmentId).length

def cold (disk : CasDisk) (cap : Nat) : CasDisk :=
  { disk with cas := disk.cas.setObjectCacheCap cap }

/-- Every write of the payload that succeeds can be read back from a cold cache. -/
def PutHonest (disk : CasDisk) (payload : Bytes) : Prop :=
  ∀ recordType hash next cap, put recordType payload disk = .ok hash next
    → ∃ found last, getPayload hash (next.cold cap) = .ok (found, payload) last

theorem Consistent.cold {disk : CasDisk} (consistent : disk.Consistent) (cap : Nat)
    : (disk.cold cap).Consistent :=
  consistent.recache fun _ _ found => by simp at found

/-- A payload that is not indexed is stored and can be read. -/
theorem putHonest_of_fresh (valid : disk.Valid) {payload : Bytes}
    (fits : payload.length + 45 < 2 ^ 32)
    (fresh : disk.cas.index.find (Hash.ofBytes payload) = none)
    : disk.PutHonest payload := by
  intro recordType hash next cap ran
  rcases put_cases valid recordType (.inl fits) with
    ⟨-, entry, found⟩ | ⟨-, stored, entry, ran', attached, stores⟩ | ⟨-, error, refused, ran', -⟩
  · simp [fresh] at found
  · cases ran.symm.trans ran'
    have consistent := stores.consistent valid.1 attached fresh
    obtain ⟨last, read⟩ := (getPayload_eq_ok (consistent.cold cap) (stores.lives valid.2)).mpr
      stores.view_self
    exact ⟨recordType, last, read⟩
  · cases ran.symm.trans ran'

/-- A payload whose hash is indexed is not written again, so it can be read exactly if it is
held.
-/
theorem putHonest_of_indexed (valid : disk.Valid) {payload : Bytes} {entry : IndexEntry}
    (found : disk.cas.index.find (Hash.ofBytes payload) = some entry)
    : disk.PutHonest payload
      ↔ ∃ recordType, disk.view (Hash.ofBytes payload) = some (recordType, payload) := by
  have present : disk.cas.index.contains (Hash.ofBytes payload) = true := by
    rw [Index.find] at found
    simp [Index.contains, AssocMap.contains, found]
  have reads (cap : Nat) {record : RecordType × Bytes} :=
    @getPayload_eq_ok (disk.cold cap) _ (valid.1.cold cap) valid.2 (Hash.ofBytes payload) record
  constructor
  · intro honest
    obtain ⟨recordType, last, read⟩ := honest .commit _ disk 0 (put_of_contains present .commit)
    exact ⟨recordType, (reads 0).mp ⟨last, read⟩⟩
  · rintro ⟨recordType, held⟩ written hash next cap ran
    cases ran.symm.trans (put_of_contains present written)
    obtain ⟨last, read⟩ := (reads cap).mpr held
    exact ⟨recordType, last, read⟩

section Killed

variable {world : World} {repoPath : Path} {recovered : CasDisk} {calls : List CasCall}
  (formed : world.fs.WellFormed) (vacant : Vacant world.fs repoPath)
  (opens : CasStore.open_ repoPath world = .ok disk.cas disk.world)
  (each : ∀ call ∈ calls, call.Writes ∧ call.Fits)
  (reopens
    : CasStore.open_ repoPath (Run.stateOf (calls.mapM CasDisk.call disk)).world.restarted
      = .ok recovered.cas recovered.world)
include formed vacant opens each reopens

/-- The store the next process opens after a run of writes on a new repository, killed anywhere. -/
theorem recovered_valid {property : Bytes → Prop}
    (only : ∀ call ∈ calls, WritesOnly property call)
    : ∃ before fs, HoldsOnly property before ∧ before.Cut fs
        ∧ Opens fs before.cas.repoPath recovered ∧ recovered.Valid := by
  have first := (open_meets formed repoPath).of_ok opens
  have opened : Opens world.fs repoPath disk := first.1
  obtain ⟨clean, empty⟩ := opened.clean (vacant _ _) fun name => vacant "data" [name]
  have holds : HoldsOnly property disk := ⟨clean, fun hash record held => by simp [empty] at held⟩
  obtain ⟨before, holds, samePath, cut⟩ := calls_remain holds fun call member =>
    ⟨(each call member).1, (each call member).2, only call member⟩
  obtain rfl : repoPath = before.cas.repoPath := (samePath.trans opened.repoPath).symm
  have second := @open_meets (Run.stateOf (calls.mapM CasDisk.call disk)).world.restarted
    cut.formed before.cas.repoPath
  rw [reopens] at second
  refine ⟨before, _, holds, cut, second.1, ⟨second.1.attached, fun hash record found => ?_⟩,
    second.2 rfl⟩
  rw [second.1.writeCache] at found
  simp at found

/-- After any run of writes on a new repository, killed anywhere, and opening what is left: a
write of a payload is honest exactly when the index entry left for it, if there is one, lies
inside what is left of its segment.
-/
theorem putHonest_iff_covers {payload : Bytes} (fits : payload.length < 2 ^ 32 - 45)
    (clashFree : ∀ recordType other, .put recordType other ∈ calls
      → Hash.ofBytes other = Hash.ofBytes payload → other = payload)
    : recovered.PutHonest payload ↔ recovered.Covers (Hash.ofBytes payload) := by
  obtain ⟨before, fs, holds, cut, opens, valid⟩ := @recovered_valid _ _ _ _ _ _ formed vacant opens
    each reopens (fun other => Hash.ofBytes other = Hash.ofBytes payload → other = payload) (by
      intro call member
      cases call with
      | put recordType other => exact clashFree recordType other member
      | _ => trivial)
  have located := cut.find_eq holds.1 opens (Hash.ofBytes payload)
  cases found : before.cas.index.find (Hash.ofBytes payload) with
  | none =>
    rw [found] at located
    refine iff_of_true (putHonest_of_fresh valid (by omega) located) ?_
    intro entry here
    simp [located] at here
  | some entry =>
    rw [found] at located
    obtain ⟨⟨recordType, other⟩, held⟩ := holds.1.honest _ _ found
    obtain rfl : other = payload := holds.2 _ _ held (holds.1.keyed _ _ held)
    have seen := cut.view_eq holds.1 opens found held
    rw [putHonest_of_indexed valid located, seen]
    constructor
    · rintro ⟨recordType, here⟩ again sameEntry
      cases located.symm.trans sameEntry
      split at here
      · assumption
      · simp at here
    · intro covers
      rw [if_pos (covers entry located)]
      exact ⟨recordType, rfl⟩

end Killed
end Recovery

-- A lost record and a kept one

section Linked

attribute [local instance] Blake3.linked

def interruptedCalls : List CasCall := [.put .hamtLeaf [1], .flush, .put .hamtLeaf [2]]

def interrupted : World := (Run.stateOf (interruptedCalls.mapM CasDisk.call bare)).world

theorem open_interrupted_isSome
    : (Run.valueOf (CasStore.open_ ["repo"] interrupted.restarted)).isSome = true := by
  decide +kernel

def recovered : CasDisk :=
  ofOpened (CasStore.open_ ["repo"] interrupted.restarted) open_interrupted_isSome

theorem open_eq_recovered
    : CasStore.open_ ["repo"] interrupted.restarted = .ok recovered.cas recovered.world :=
  eq_ofOpened open_interrupted_isSome

theorem interruptedCalls_write : ∀ call ∈ interruptedCalls, call.Writes ∧ call.Fits := by
  simp [interruptedCalls, CasCall.Writes, CasCall.Fits]

theorem valid_recovered
    : recovered.Valid ∧ ∀ hash, recovered.cas.writeCache.get hash = none := by
  obtain ⟨_, _, _, _, opens, valid⟩ := @recovered_valid _ _ _ _ _ _ FileSystem.wellFormed_empty
    (vacant_bare ["repo"]) open_eq_bare interruptedCalls_write open_eq_recovered (fun _ => True)
    fun call _ => by cases call <;> trivial
  exact ⟨valid, fun hash => by rw [opens.writeCache, LruMap.get_new]⟩

theorem putHonest_iff_covers_interrupted
    : PutHonest recovered [1] ↔ Covers recovered (Hash.ofBytes [1]) :=
  putHonest_iff_covers FileSystem.wellFormed_empty (vacant_bare ["repo"]) open_eq_bare
    interruptedCalls_write open_eq_recovered (by decide)
    (by
      intro recordType other member
      simp only [interruptedCalls, List.mem_cons, CasCall.put.injEq, reduceCtorEq, false_or,
        List.not_mem_nil, or_false] at member
      rcases member with ⟨-, rfl⟩ | ⟨-, rfl⟩
      · exact fun _ => rfl
      · decide +kernel)

/-- The lost payload: writing it succeeds again without writing anything, and reading it from a
cold cache ends before the record does.
-/
theorem put_dishonest_after_kill
    : put .hamtLeaf [2] recovered = .ok (Hash.ofBytes [2]) recovered
      ∧ Run.valueOf (Run.observe (getPayload (Hash.ofBytes [2])) (recovered.cold 1))
        = some (.error World.unexpectedEof)
      ∧ ¬ recovered.PutHonest [2] := by
  have written : put .hamtLeaf [2] recovered = .ok (Hash.ofBytes [2]) recovered :=
    put_of_contains (by decide +kernel) .hamtLeaf
  have unreadable : Run.valueOf (Run.observe (getPayload (Hash.ofBytes [2])) (recovered.cold 1))
      = some (.error World.unexpectedEof) := by
    decide +kernel
  refine ⟨written, unreadable, fun honest => ?_⟩
  obtain ⟨recordType, last, read⟩ := honest .hamtLeaf _ recovered 1 written
  rw [Run.observe_of_ok read] at unreadable
  simp [Run.valueOf] at unreadable

end Linked
end CasDisk
end Epochs
