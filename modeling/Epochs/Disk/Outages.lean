import Epochs.Disk.Recovery

/-! Writes during which a file operation fails. The append to the index, or the creation of the
next segment, returns an error and has written nothing; what the store does then is what its
code does up to that point.
-/

namespace Epochs

open Lib Run

/-- A file operation that fails, and the error it returns. -/
inductive Outage where
  | indexAppend (error : EpochsError)
  | segmentCreation (error : EpochsError)

/-- A call on the store, and the file operation that fails if the call comes to it. -/
structure Attempt where
  call : CasCall
  outage : Option Outage

def Index.insertUnder (outage : Option Outage) (index : Index) (hash : Hash) (entry : IndexEntry)
    : Run EpochsError World Index :=
  match outage with
  | some (.indexAppend error) => if index.contains hash then pure index else Run.fail error
  | _ => index.insert hash entry

def openOrCreateSegmentUnder (outage : Option Outage) (path : Path) (segmentId : Nat)
    : Run EpochsError World (Nat × Nat) :=
  match outage with
  | some (.segmentCreation error) => Run.fail error
  | _ => openOrCreateSegment path segmentId

namespace CasDisk

def rotateSegmentUnder (outage : Option Outage) : Run EpochsError CasDisk Unit := do
  flush
  let cas := (← get).cas
  let next := cas.currentSegmentId + 1
  if 2 ^ 16 ≤ next then
    Run.fail (.storage (.corrupt "segment id overflow"))
  else do
    update fun cas => { cas with currentSegmentId := next }
    let (file, offset) ←
      onWorld (openOrCreateSegmentUnder outage (segmentPathFor cas.repoPath next) next)
    update fun cas => { cas with currentFile := BufWriter.new file, currentOffset := offset }

def ensureSegmentCapacityUnder (outage : Option Outage) (needed : Nat)
    : Run EpochsError CasDisk Unit := do
  if segmentMaxBytes < (← get).cas.currentOffset + needed then
    rotateSegmentUnder outage
  else
    pure ()

def writeRecordUnder [Blake3] (outage : Option Outage) (recordType : RecordType) (payload : Bytes)
    : Run EpochsError CasDisk Unit := do
  let hash := Hash.ofBytes payload
  let recordBytes := encodeRecord recordType payload hash
  let recordLen := recordBytes.length % 2 ^ 32
  let cas := (← get).cas
  let writer ← onWorld (cas.currentFile.writeAll recordBytes)
  update fun cas => { cas with currentFile := writer }
  let index ← onWorld (cas.index.insertUnder outage hash
    { segmentId := cas.currentSegmentId, offset := cas.currentOffset, recordLen })
  update fun cas =>
    { cas with
      index
      currentOffset := cas.currentOffset + recordLen
      dirty := true
      writeCache := cas.writeCache.insert hash (recordType, payload) }

def putUnder [Blake3] (outage : Option Outage) (recordType : RecordType) (payload : Bytes)
    : Run EpochsError CasDisk Hash := do
  let hash := Hash.ofBytes payload
  if (← get).cas.index.contains hash then
    pure hash
  else do
    ensureSegmentCapacityUnder outage (41 + payload.length + 4)
    writeRecordUnder outage recordType payload
    pure hash

def attempt [Blake3] (attempt : Attempt) : Run EpochsError CasDisk CasReply :=
  match attempt.call with
  | .put recordType payload => .stored <$> Run.observe (putUnder attempt.outage recordType payload)
  | call => CasDisk.call call

variable {disk : CasDisk} {outage : Option Outage}

-- Outages that are not met

theorem rotateSegmentUnder_eq (other : ∀ error, outage ≠ some (.segmentCreation error))
    : rotateSegmentUnder outage = rotateSegment := by
  have same : openOrCreateSegmentUnder outage = openOrCreateSegment := by
    funext path segmentId
    unfold openOrCreateSegmentUnder
    split
    · rename_i error
      exact absurd rfl (other error)
    · rfl
  rw [rotateSegmentUnder, same]
  rfl

theorem ensureSegmentCapacityUnder_eq (other : ∀ error, outage ≠ some (.segmentCreation error))
    (needed : Nat)
    : ensureSegmentCapacityUnder outage needed = ensureSegmentCapacity needed := by
  rw [ensureSegmentCapacityUnder, rotateSegmentUnder_eq other]
  rfl

/-- The creation of a segment cannot fail when none is created: there is room, or no number. -/
theorem ensureSegmentCapacityUnder_unmet (attached : disk.Attached) {payload : Bytes}
    (unmet : disk.cas.currentOffset + (45 + payload.length) ≤ segmentMaxBytes ∨ disk.Full payload)
    : ensureSegmentCapacityUnder outage (45 + payload.length) disk
      = ensureSegmentCapacity (45 + payload.length) disk := by
  rw [ensureSegmentCapacityUnder, ensureSegmentCapacity, get_bind_apply, get_bind_apply]
  split
  · rename_i long
    have full := unmet.resolve_left (Nat.not_le.mpr long)
    rw [rotateSegmentUnder, rotateSegment, bind_apply, bind_apply]
    have flushed := flush_meets attached
    cases outcome : flush disk with
    | error reason next => rfl
    | ok value middle =>
      rw [outcome] at flushed
      have last : 2 ^ 16 ≤ middle.cas.currentSegmentId + 1 :=
        Nat.le_of_eq ((congrArg (· + 1) flushed.2.1.current).trans full.2).symm
      dsimp only
      rw [get_bind_apply, get_bind_apply, if_pos last, if_pos last]
  · rfl

variable [Blake3]

theorem writeRecordUnder_eq (other : ∀ error, outage ≠ some (.indexAppend error))
    (recordType : RecordType) (payload : Bytes)
    : writeRecordUnder outage recordType payload = writeRecord recordType payload := by
  have same : Index.insertUnder outage = Index.insert := by
    funext index hash entry
    unfold Index.insertUnder
    split
    · rename_i error
      exact absurd rfl (other error)
    · rfl
  rw [writeRecordUnder, same]
  rfl

theorem putUnder_none (recordType : RecordType) (payload : Bytes)
    : putUnder none recordType payload = put recordType payload := by
  rw [putUnder, writeRecordUnder_eq (by simp), ensureSegmentCapacityUnder_eq (by simp)]
  rfl

def Meets (disk : CasDisk) (payload : Bytes) : Option Outage → Prop
  | none => False
  | some (.indexAppend _) => True
  | some (.segmentCreation _) => segmentMaxBytes < disk.cas.currentOffset + (45 + payload.length)

/-- The call is harmless: it writes nothing; or its record fits the length field and it does
not come to an operation that fails.
-/
def Withstands (disk : CasDisk) (attempt : Attempt) : Prop :=
  match attempt.call with
  | .put _ payload =>
    disk.cas.index.contains (Hash.ofBytes payload) = true
    ∨ disk.Full payload
    ∨ (payload.length + 45 < 2 ^ 32 ∧ ¬ disk.Meets payload attempt.outage)
  | _ => True

/-- A payload is written as without the outage if the write does not come to it. -/
theorem putUnder_unmet (attached : disk.Attached) {payload : Bytes}
    (unmet : disk.Full payload ∨ ¬ disk.Meets payload outage) (recordType : RecordType)
    : putUnder outage recordType payload disk = put recordType payload disk := by
  cases outage with
  | none => rw [putUnder_none]
  | some kind =>
    rw [putUnder, put, get_bind_apply, get_bind_apply]
    split
    · rfl
    · rw [show 41 + payload.length + 4 = 45 + payload.length by omega, bind_apply,
        bind_apply]
      cases kind with
      | indexAppend error =>
        -- The index is not reached: the segment has no room.
        have full := unmet.resolve_right (not_not.mpr trivial)
        have refused := ensureSegmentCapacity_of_full attached full
        rw [ensureSegmentCapacityUnder_eq (by simp)]
        cases outcome : ensureSegmentCapacity (45 + payload.length) disk with
        | ok value next =>
          rw [outcome] at refused
          exact refused.elim
        | error reason next => rfl
      | segmentCreation error =>
        rw [ensureSegmentCapacityUnder_unmet attached
          (unmet.symm.imp Nat.le_of_not_lt id), writeRecordUnder_eq (by simp)]

theorem Withstands.takesCall {attempt : Attempt} (withstands : disk.Withstands attempt)
    : disk.TakesCall attempt.call := by
  obtain ⟨call, outage⟩ := attempt
  cases call with
  | put recordType payload =>
    rcases withstands with present | full | ⟨fits, -⟩
    · exact .inr (.inl present)
    · exact .inr (.inr full)
    · exact .inl fits
  | _ => trivial

/-- A call that withstands its outage is the same call without it. -/
theorem Withstands.attempt_eq {attempt : Attempt} (withstands : disk.Withstands attempt)
    (attached : disk.Attached)
    : CasDisk.attempt attempt disk = CasDisk.call attempt.call disk := by
  obtain ⟨call, outage⟩ := attempt
  cases call with
  | put recordType payload =>
    have same : putUnder outage recordType payload disk = put recordType payload disk := by
      rcases withstands with present | full | ⟨-, unmet⟩
      · rw [put_of_contains present, putUnder, get_bind_apply]
        simp only [present, if_true]
        rfl
      · exact putUnder_unmet attached (.inl full) recordType
      · exact putUnder_unmet attached (.inr unmet) recordType
    simp only [CasDisk.attempt, CasDisk.call, map_apply, observe, same]
  | _ => rfl

-- The file and the offset of the active segment

/-- The open file is that of the active segment, and the offset is its length with what is
still buffered.
-/
structure Synced (disk : CasDisk) : Prop where
  file : disk.fs.inodeAt (disk.segmentPath disk.cas.currentSegmentId)
    = some disk.cas.currentFile.file
  offset : disk.cas.currentOffset
    = (disk.fs.content disk.cas.currentFile.file).length + disk.cas.currentFile.buffer.length

omit [Blake3] in
theorem length_segmentBytes_current (disk : CasDisk)
    : (disk.segmentBytes disk.cas.currentSegmentId).length
      = (disk.fs.content disk.cas.currentFile.file).length
        + disk.cas.currentFile.buffer.length := by
  rw [segmentBytes_current, List.length_append]

omit [Blake3] in
theorem Attached.synced (attached : disk.Attached) : disk.Synced :=
  ⟨attached.active, attached.offset.trans (length_segmentBytes_current disk)⟩

/-- A record of 2 ^ 32 bytes or more is longer than the offset says. -/
theorem Grown.not_synced {before after : CasDisk} {recordType : RecordType} {payload : Bytes}
    (grown : Grown before after recordType payload) (attached : before.Attached)
    (long : 2 ^ 32 ≤ payload.length + 45)
    : ¬ after.Synced := by
  intro synced
  have wraps : (45 + payload.length) % 2 ^ 32 < 45 + payload.length :=
    Nat.lt_of_lt_of_le (Nat.mod_lt _ (by decide)) (by omega)
  have lengths := synced.offset
  rw [← length_segmentBytes_current, grown.bytes, grown.offset, List.length_append,
    length_encodeRecord, attached.offset] at lengths
  omega

/-- When the index cannot be appended to, the record is written and the offset is not moved. -/
theorem writeRecordUnder_not_synced (attached : disk.Attached)
    (alive : disk.world.deadline = none) (recordType : RecordType) {payload : Bytes}
    (fresh : disk.cas.index.contains (Hash.ofBytes payload) = false) (error : EpochsError)
    : ∃ next, writeRecordUnder (some (.indexAppend error)) recordType payload disk
          = .error (.err error) next
        ∧ ¬ next.Synced := by
  obtain ⟨writer, written, wrote, file, -, flushed, appended, left⟩ :=
    (BufWriter.writeAll_meets disk.cas.currentFile
      (encodeRecord recordType payload (Hash.ofBytes payload)) disk.world).returns
      fun reason next killed => killed.1.2 alive
  refine ⟨{ world := written, cas := { disk.cas with currentFile := writer } }, ?_, ?_⟩
  · rw [writeRecordUnder, get_bind_apply]
    rw [bind_of_ok (onWorld_of_ok wrote), bind_of_ok (update_apply _ _)]
    refine bind_of_error (onWorld_of_error ?_)
    simp only [Index.insertUnder, fresh, Bool.false_eq_true, if_false]
    rfl
  · intro synced
    have lengths := synced.offset
    have bytes := attached.offset
    have total := congrArg List.length left
    dsimp only at lengths
    rw [file, appended.content_self, List.length_append] at lengths
    rw [length_segmentBytes_current, fs] at bytes
    rw [List.length_append, List.length_append, length_encodeRecord] at total
    omega

omit [Blake3] in
/-- When the next segment cannot be created, its number is active and its file is missing. -/
theorem rotateSegmentUnder_not_synced (attached : disk.Attached)
    (alive : disk.world.deadline = none) (room : disk.cas.currentSegmentId + 1 < 2 ^ 16)
    (error : EpochsError)
    : ∃ next, rotateSegmentUnder (some (.segmentCreation error)) disk = .error (.err error) next
        ∧ ¬ next.Synced := by
  obtain ⟨_, middle, flushed, stillAttached, keeps, -⟩ :=
    (flush_meets attached).returns fun reason next halts => halts.1.2 alive
  have small : middle.cas.currentSegmentId + 1 < 2 ^ 16 := keeps.current ▸ room
  refine ⟨{ middle with cas :=
    { middle.cas with currentSegmentId := middle.cas.currentSegmentId + 1 } }, ?_, ?_⟩
  · rw [rotateSegmentUnder, bind_of_ok flushed, get_bind_apply]
    rw [if_neg (Nat.not_le.mpr small), bind_of_ok (update_apply _ _)]
    exact bind_of_error (onWorld_of_error rfl)
  · intro synced
    have missing := FileSystem.inodeAt_of_none
      (stillAttached.unused _ (Nat.lt_succ_self _) small)
    exact absurd (missing.symm.trans synced.file) (by simp)

/-- A write that comes to the operation that fails. -/
theorem putUnder_not_synced (attached : disk.Attached) (alive : disk.world.deadline = none)
    (recordType : RecordType) {payload : Bytes}
    (fresh : disk.cas.index.contains (Hash.ofBytes payload) = false) (room : ¬ disk.Full payload)
    (met : disk.Meets payload outage)
    : ¬ (stateOf (putUnder outage recordType payload disk)).Synced := by
  rw [putUnder, get_bind_apply]
  simp only [fresh, Bool.false_eq_true, if_false]
  rw [show 41 + payload.length + 4 = 45 + payload.length by omega]
  cases outage with
  | none => exact met.elim
  | some kind =>
    cases kind with
    | indexAppend error =>
      obtain ⟨middle, ensured, stillAttached, prepares⟩ :=
        ensureSegmentCapacity_returns attached alive room
      rw [← prepares.index] at fresh
      obtain ⟨next, failed, unsynced⟩ := writeRecordUnder_not_synced stillAttached
        (prepares.lives alive) recordType fresh error
      rw [ensureSegmentCapacityUnder_eq (by simp), bind_of_ok ensured,
        bind_of_error failed]
      exact unsynced
    | segmentCreation error =>
      have long : segmentMaxBytes < disk.cas.currentOffset + (45 + payload.length) := met
      have last : disk.cas.currentSegmentId + 1 ≠ 2 ^ 16 := fun last => room ⟨long, last⟩
      have bounded := attached.bounded
      obtain ⟨next, failed, unsynced⟩ :=
        rotateSegmentUnder_not_synced attached alive (by omega) error
      have ensured : ensureSegmentCapacityUnder (some (.segmentCreation error))
          (45 + payload.length) disk = .error (.err error) next := by
        rw [ensureSegmentCapacityUnder, get_bind_apply]
        rw [if_pos long, failed]
      rw [bind_of_error ensured]
      exact unsynced

/-- A call that does not withstand its outage leaves the store out of step with its files. -/
theorem attempt_not_synced (attached : disk.Attached) (alive : disk.world.deadline = none)
    {attempt : Attempt} (harmed : ¬ disk.Withstands attempt)
    : ¬ (stateOf (CasDisk.attempt attempt disk)).Synced := by
  obtain ⟨call, outage⟩ := attempt
  cases call with
  | put recordType payload =>
    simp only [Withstands, not_or, not_and_or, not_not, Bool.not_eq_true] at harmed
    obtain ⟨fresh, room, harm⟩ := harmed
    simp only [CasDisk.attempt, stateOf_map, stateOf_observe]
    by_cases met : disk.Meets payload outage
    · exact putUnder_not_synced attached alive recordType fresh room met
    · obtain ⟨middle, next, ran, stillAttached, -, grown⟩ :=
        put_grown attached alive recordType fresh room
      rw [putUnder_unmet attached (.inr met), ran]
      exact grown.not_synced stillAttached (Nat.le_of_not_lt (harm.resolve_right met))
  | _ => exact absurd trivial harmed

-- Whole runs

def Readable (disk : CasDisk) (hash : Hash) : Prop :=
  ∀ cap, ∃ record last, getPayload hash (disk.cold cap) = .ok record last
    ∧ Hash.ofBytes record.2 = hash

def Indexed (disk : CasDisk) (hash : Hash) : Prop :=
  ∃ entry, disk.cas.index.find hash = some entry

theorem Clean.readable (clean : disk.Clean) (alive : disk.world.deadline = none) {hash : Hash}
    (indexed : disk.Indexed hash)
    : disk.Readable hash := by
  intro cap
  obtain ⟨entry, found⟩ := indexed
  obtain ⟨record, held⟩ := clean.honest hash entry found
  obtain ⟨last, read⟩ :=
    (getPayload_eq_ok (clean.toConsistent.cold cap) alive).mpr held
  exact ⟨record, last, read, clean.keyed hash record held⟩

theorem Moves.indexed {before after : CasDisk} (moves : before.Moves after) {hash : Hash}
    (indexed : before.Indexed hash)
    : after.Indexed hash := by
  obtain ⟨entry, found⟩ := indexed
  rcases moves with still | ⟨recordType, payload, entry, -, -, stores⟩
  · exact ⟨entry, still.index.symm ▸ found⟩
  · by_cases same : Hash.ofBytes payload = hash
    · exact ⟨_, same ▸ stores.find_self⟩
    · exact ⟨_, (stores.find_of_ne (Ne.symm same)).trans found⟩

/-- What a call that withstands its outage does: a write that succeeds is in the index. -/
theorem Withstands.attempt {attempt : Attempt} (withstands : disk.Withstands attempt)
    (clean : disk.Clean) (alive : disk.world.deadline = none)
    : ∃ reply next, CasDisk.attempt attempt disk = .ok reply next
        ∧ next.Clean ∧ next.world.deadline = none
        ∧ (∀ hash, disk.Indexed hash → next.Indexed hash)
        ∧ ∀ hash, reply = .stored (.ok hash) → next.Indexed hash := by
  obtain ⟨reply, next, ran, ⟨stillClean, stillAlive, -⟩, moves⟩ :=
    call_answered clean alive attempt.call withstands.takesCall
  refine ⟨reply, next, (withstands.attempt_eq clean.toAttached).trans ran, stillClean, stillAlive,
    fun hash => moves.indexed, ?_⟩
  rintro hash rfl
  obtain ⟨recordType, payload, called⟩ : ∃ recordType payload,
      attempt.call = .put recordType payload := by
    generalize attempt.call = call at ran
    cases call with
    | put recordType payload => exact ⟨recordType, payload, rfl⟩
    | getRecord hash =>
      obtain ⟨_, -, mismatch⟩ := map_eq_ok.mp ran
      cases mismatch
    | flush =>
      obtain ⟨_, -, mismatch⟩ := map_eq_ok.mp ran
      cases mismatch
    | reopen =>
      obtain ⟨_, -, mismatch⟩ := map_eq_ok.mp ran
      cases mismatch
    | _ => cases ran
  have takes := withstands.takesCall
  rw [called] at ran takes
  obtain ⟨result, observed, same⟩ := map_eq_ok.mp ran
  cases same
  have written := observe_eq_ok_ok.mp observed
  rcases put_cases ⟨clean.toConsistent, alive⟩ recordType takes with
    ⟨ran', indexed⟩ | ⟨-, stored, entry, ran', -, stores⟩ | ⟨-, error, refused, ran', -⟩
  · cases written.symm.trans ran'
    exact indexed
  · cases written.symm.trans ran'
    exact ⟨entry, stores.find_self⟩
  · cases written.symm.trans ran'

/-- The states of a run of calls that all withstand their outages. -/
theorem clean_of_each (clean : disk.Clean) (alive : disk.world.deadline = none)
    {attempts : List Attempt} (each : Each CasDisk.attempt Withstands attempts disk)
    : (stateOf (attempts.mapM CasDisk.attempt disk)).Clean
      ∧ (stateOf (attempts.mapM CasDisk.attempt disk)).world.deadline = none
      ∧ ∀ hash, disk.Indexed hash
        → (stateOf (attempts.mapM CasDisk.attempt disk)).Indexed hash := by
  induction attempts generalizing disk with
  | nil => exact ⟨clean, alive, fun _ indexed => indexed⟩
  | cons first rest ih =>
    obtain ⟨reply, next, ran, stillClean, stillAlive, kept, -⟩ :=
      Withstands.attempt each.head clean alive
    obtain ⟨lastClean, lastAlive, keeps⟩ :=
      ih stillClean stillAlive ((each_cons ran).mp each).2
    rw [stateOf_mapM_cons ran]
    exact ⟨lastClean, lastAlive, fun hash indexed => keeps hash (kept hash indexed)⟩

/-- At the end of the run, every object whose write succeeded can be read from the files. -/
def WritesReadable (disk : CasDisk) (attempts : List Attempt) : Prop :=
  ∀ front attempt back hash next, attempts = front ++ attempt :: back
    → CasDisk.attempt attempt (Run.stateOf (front.mapM CasDisk.attempt disk))
      = .ok (.stored (.ok hash)) next
    → (Run.stateOf (attempts.mapM CasDisk.attempt disk)).Readable hash

theorem writesReadable_of_each (clean : disk.Clean) (alive : disk.world.deadline = none)
    {attempts : List Attempt} (each : Each CasDisk.attempt Withstands attempts disk)
    : disk.WritesReadable attempts := by
  induction attempts generalizing disk with
  | nil => exact fun front attempt back hash next split => by simp at split
  | cons first rest ih =>
    intro front attempt back hash last split written
    obtain ⟨reply, next, ran, stillClean, stillAlive, -, stored⟩ :=
      Withstands.attempt each.head clean alive
    have later := ((each_cons ran).mp each).2
    rw [stateOf_mapM_cons ran]
    cases front with
    | nil =>
      obtain ⟨rfl, rfl⟩ := List.cons.inj split
      cases ran.symm.trans written
      obtain ⟨lastClean, lastAlive, keeps⟩ := clean_of_each stillClean stillAlive later
      exact lastClean.readable lastAlive (keeps hash (stored hash rfl))
    | cons head front =>
      obtain ⟨rfl, rest⟩ := List.cons.inj split
      rw [stateOf_mapM_cons ran] at written
      exact ih stillClean stillAlive later front attempt back hash last rest written

/-- On a repository that held nothing, in every run of calls some of which meet an operation
that fails: the open file and the offset are right after every call, and every write that
succeeds can be read from the files, exactly when each call writes nothing, or writes a record
that fits the length field and does not come to the operation that fails.
-/
theorem outages_harmless_iff {world : World} {repoPath : Path} (formed : world.fs.WellFormed)
    (alive : world.deadline = none) (vacant : Vacant world.fs repoPath)
    (opens : CasStore.open_ repoPath world = .ok disk.cas disk.world) (attempts : List Attempt)
    : (∀ front, front <+: attempts → (Run.stateOf (front.mapM CasDisk.attempt disk)).Synced)
        ∧ disk.WritesReadable attempts
      ↔ Run.Each CasDisk.attempt Withstands attempts disk := by
  obtain ⟨opened, lives⟩ := (open_meets formed repoPath).of_ok opens
  obtain ⟨clean, -⟩ := opened.clean (vacant _ _) fun name => vacant "data" [name]
  have synced := @Run.good_iff_each _ _ _ _ CasDisk.attempt disk
    (fun state => state.Clean ∧ state.world.deadline = none) Synced Withstands
    (fun state attempt kept withstands => by
      obtain ⟨reply, next, ran, stillClean, stillAlive, -⟩ :=
        Withstands.attempt withstands kept.1 kept.2
      exact ⟨reply, next, ran, stillClean, stillAlive⟩)
    (fun state kept => kept.1.toAttached.synced)
    (fun state attempt kept harmed => attempt_not_synced kept.1.toAttached kept.2 harmed)
    ⟨clean, lives alive⟩ attempts
  constructor
  · exact fun holds => synced.mp holds.1
  · exact fun each => ⟨synced.mpr each, writesReadable_of_each clean (lives alive) each⟩

end CasDisk

-- An outage that is not met, and one that is

section Linked

attribute [local instance] Blake3.linked

def noSpace : EpochsError := .io "No space left on device (os error 28)"

def spacedAttempts : List Attempt :=
  [⟨.put .hamtLeaf [1], some (.segmentCreation noSpace)⟩, ⟨.put .hamtLeaf [2], none⟩,
    ⟨.getRecord (Hash.ofBytes [1]), none⟩]

theorem CasDisk.outages_harmless_iff_spacedAttempts
    : (∀ front, front <+: spacedAttempts
        → (Run.stateOf (front.mapM CasDisk.attempt CasDisk.bare)).Synced)
      ∧ CasDisk.bare.WritesReadable spacedAttempts := by
  refine (CasDisk.outages_harmless_iff FileSystem.wellFormed_empty rfl
    (CasDisk.vacant_bare ["repo"]) CasDisk.open_eq_bare spacedAttempts).mpr ?_
  intro front attempt back split
  rcases front with _ | ⟨first, front⟩
  · obtain ⟨rfl, -⟩ := List.cons.inj split
    have room : ¬ segmentMaxBytes < CasDisk.bare.cas.currentOffset + (45 + 1) := by decide +kernel
    exact .inr (.inr ⟨by decide, room⟩)
  · have member : attempt ∈ spacedAttempts.tail := by
      rw [split]
      simp
    rcases List.mem_cons.mp member with rfl | last
    · exact .inr (.inr ⟨by decide, id⟩)
    · rw [List.mem_singleton.mp last]
      trivial

def failedAppend : List Attempt :=
  [⟨.put .hamtLeaf [1], some (.indexAppend noSpace)⟩, ⟨.put .hamtLeaf [2], none⟩]

/-- The second write succeeds, and reading it returns what the first one wrote. -/
theorem CasDisk.outage_not_harmless
    : (¬ ∀ front, front <+: failedAppend
        → (Run.stateOf (front.mapM CasDisk.attempt CasDisk.bare)).Synced)
      ∧ ¬ CasDisk.bare.WritesReadable failedAppend := by
  constructor
  · intro synced
    exact absurd (synced failedAppend List.prefix_rfl).offset (by decide +kernel)
  · intro readable
    have stored : Run.valueOf (CasDisk.attempt ⟨.put .hamtLeaf [2], none⟩
        (Run.stateOf ((failedAppend.take 1).mapM CasDisk.attempt CasDisk.bare)))
        = some (.stored (.ok (Hash.ofBytes [2]))) := by decide +kernel
    have other : Run.valueOf (CasDisk.getPayload (Hash.ofBytes [2])
        ((Run.stateOf (failedAppend.mapM CasDisk.attempt CasDisk.bare)).cold 0))
        = some (.hamtLeaf, [1]) := by decide +kernel
    obtain ⟨record, last, read, keyed⟩ := readable (failedAppend.take 1) ⟨.put .hamtLeaf [2], none⟩ []
      (Hash.ofBytes [2]) _ rfl (Run.eq_ok_of_valueOf stored) 0
    rw [read] at other
    cases other
    exact absurd keyed (by decide +kernel)

end Linked
end Epochs
