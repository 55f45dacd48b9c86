import Epochs.Core.Blake3
import Epochs.Disk.Clean

/-! The store on disk gives the same answers as the in-memory store. Both are compared with an
abstract store that is nothing but its view.
-/

namespace Epochs

open Lib Run

inductive CasCall where
  | put (recordType : RecordType) (payload : Bytes)
  | getRecord (hash : Hash)
  | flush
  | setObjectCacheCap (cap : Nat)
  | setMmapCap (cap : Nat)
  | reopen
  deriving DecidableEq

inductive CasReply where
  | stored (result : Except EpochsError Hash)
  | loaded (result : Except EpochsError (RecordType × Bytes))
  | done (result : Except EpochsError Unit)
  deriving DecidableEq

namespace CasCall

def Fits : CasCall → Prop
  | put _ payload => payload.length < 2 ^ 32 - 45
  | _ => True

instance : (call : CasCall) → Decidable call.Fits
  | put _ payload => inferInstanceAs (Decidable (payload.length < 2 ^ 32 - 45))
  | getRecord _ => .isTrue trivial
  | flush => .isTrue trivial
  | setObjectCacheCap _ => .isTrue trivial
  | setMmapCap _ => .isTrue trivial
  | reopen => .isTrue trivial

end CasCall

/-- The abstract store: a write deduplicates, a read returns what is held, and every other call
changes nothing.
-/
def View.answer [Blake3] (view : View) : CasCall → CasReply × View
  | .put recordType payload =>
    (.stored (.ok (Hash.ofBytes payload)),
      view.add (Hash.ofBytes payload) (recordType, payload))
  | .getRecord hash =>
    match view hash with
    | some record => (.loaded (.ok record), view)
    | none => (.loaded (.error (.storage (.notFound hash))), view)
  | .flush => (.done (.ok ()), view)
  | .setObjectCacheCap _ => (.done (.ok ()), view)
  | .setMmapCap _ => (.done (.ok ()), view)
  | .reopen => (.done (.ok ()), view)

/-- The calls on the in-memory store, which has no caches, maps or files. -/
def MemCas.call [Blake3] : CasCall → Run EpochsError MemCas CasReply
  | .put recordType payload => .stored <$> Run.observe (put recordType payload)
  | .getRecord hash => .loaded <$> Run.observe (getRecord hash)
  | .flush => pure (.done (.ok ()))
  | .setObjectCacheCap _ => pure (.done (.ok ()))
  | .setMmapCap _ => pure (.done (.ok ()))
  | .reopen => pure (.done (.ok ()))

def CasDisk.call [Blake3] : CasCall → Run EpochsError CasDisk CasReply
  | .put recordType payload => .stored <$> Run.observe (put recordType payload)
  | .getRecord hash => .loaded <$> Run.observe (getPayload hash)
  | .flush => .done <$> Run.observe flush
  | .setObjectCacheCap cap => do
    update fun cas => cas.setObjectCacheCap cap
    pure (.done (.ok ()))
  | .setMmapCap cap => do
    update fun cas => cas.setMmapCap cap
    pure (.done (.ok ()))
  | .reopen => .done <$> Run.observe reopen

section Answers

variable [Blake3]

theorem MemCas.call_answer (cas : MemCas) (call : CasCall)
    : ∃ next, MemCas.call call cas = .ok (cas.view.answer call).1 next
        ∧ next.view = (cas.view.answer call).2 := by
  cases call with
  | put recordType payload =>
    obtain ⟨next, ran, seen⟩ := put_apply recordType payload cas
    exact ⟨next, by rw [MemCas.call, map_apply, observe_of_ok ran]; rfl, seen⟩
  | getRecord hash =>
    have read := getRecord_apply hash cas
    cases held : cas.view hash with
    | some record =>
      simp only [held] at read
      refine ⟨cas, ?_, by simp [View.answer, held]⟩
      rw [MemCas.call, map_apply, observe_of_ok read]
      simp [View.answer, held]
    | none =>
      simp only [held] at read
      refine ⟨cas, ?_, by simp [View.answer, held]⟩
      rw [MemCas.call, map_apply, observe_of_err read]
      simp [View.answer, held]
  | flush => exact ⟨cas, rfl, rfl⟩
  | setObjectCacheCap cap => exact ⟨cas, rfl, rfl⟩
  | setMmapCap cap => exact ⟨cas, rfl, rfl⟩
  | reopen => exact ⟨cas, rfl, rfl⟩

namespace CasDisk

variable {disk : CasDisk}

/-- A call answered as the abstract store does, by a store that stays clean and has no fewer
segments; or one refused for want of a segment number.
-/
def Answered (disk : CasDisk) (call : CasCall) (reply : CasReply) (next : CasDisk) : Prop :=
  next.Clean
  ∧ next.world.deadline = none
  ∧ disk.cas.currentSegmentId ≤ next.cas.currentSegmentId
  ∧ ((reply, next.view) = disk.view.answer call ∨ disk.cas.currentSegmentId + 1 = 2 ^ 16)

/-- The same index and the same bytes in the same segments. -/
structure Still (before after : CasDisk) : Prop where
  index : after.cas.index = before.cas.index
  current : after.cas.currentSegmentId = before.cas.currentSegmentId
  segmentBytes : ∀ segmentId < 2 ^ 16, after.segmentBytes segmentId = before.segmentBytes segmentId

omit [Blake3] in
theorem Keeps.still {before after : CasDisk} (keeps : Keeps before after) : Still before after :=
  ⟨keeps.index, keeps.current, keeps.segmentBytes⟩

/-- What a call does to the segments: nothing, or it writes the record of a new object. -/
def Moves (before after : CasDisk) : Prop :=
  Still before after
  ∨ ∃ recordType payload entry, before.cas.index.find (Hash.ofBytes payload) = none
    ∧ after.cas.currentSegmentId < 2 ^ 16
    ∧ Stores before after (Hash.ofBytes payload) (recordType, payload) entry

def TakesCall (disk : CasDisk) : CasCall → Prop
  | .put _ payload => disk.Takes payload
  | _ => True

theorem takesCall_of_fits (disk : CasDisk) {call : CasCall} (fits : call.Fits)
    : disk.TakesCall call := by
  cases call with
  | put recordType payload =>
    simp only [CasCall.Fits] at fits
    exact .inl (by omega)
  | _ => trivial

section Calls

variable (clean : disk.Clean) (alive : disk.world.deadline = none)
include clean alive

theorem put_answered (recordType : RecordType) {payload : Bytes}
    (takes : disk.Takes payload)
    : ∃ result next, observe (put recordType payload) disk = .ok result next
        ∧ disk.Answered (.put recordType payload) (.stored result) next ∧ disk.Moves next := by
  rcases put_cases ⟨clean.toConsistent, alive⟩ recordType takes with
    ⟨ran, entry, found⟩ | ⟨fresh, next, entry, ran, attached, stores⟩
      | ⟨-, error, next, ran, refuses⟩
  · obtain ⟨record, held⟩ := clean.honest _ _ found
    refine ⟨_, disk, observe_of_ok ran, ⟨clean, alive, Nat.le_refl _, .inl ?_⟩,
      .inl (Keeps.refl disk).still⟩
    rw [View.answer, View.add_of_held held]
  · refine ⟨_, next, observe_of_ok ran, ⟨stores.clean clean attached fresh,
      stores.lives alive, stores.current, .inl ?_⟩,
      .inr ⟨recordType, payload, entry, fresh, attached.bounded, stores⟩⟩
    rw [View.answer, stores.view_eq_add clean.toAttached clean.honest fresh]
  · obtain ⟨-, full, attached, keeps⟩ := refuses
    exact ⟨_, next, observe_of_err ran, ⟨keeps.clean clean attached, keeps.lives alive,
      Nat.le_of_eq keeps.current.symm, .inr full⟩, .inl keeps.still⟩

theorem getPayload_answered (hash : Hash)
    : ∃ result next, observe (getPayload hash) disk = .ok result next
        ∧ disk.Answered (.getRecord hash) (.loaded result) next ∧ Still disk next := by
  have meets := getPayload_meets clean.toConsistent alive hash
  cases outcome : getPayload hash disk with
  | ok record next =>
    rw [outcome] at meets
    obtain ⟨held, middle, cache, rfl, consistent, keeps, cached⟩ := meets
    have stillClean := (keeps.clean clean consistent.toAttached).recache cached
    refine ⟨_, _, observe_of_ok outcome, ⟨stillClean, keeps.lives alive,
      Nat.le_of_eq keeps.current.symm, .inl ?_⟩,
      ⟨keeps.index, keeps.current, keeps.segmentBytes⟩⟩
    simp only [View.answer, held]
    exact congrArg _ (keeps.view clean.toAttached)
  | error reason next =>
    rw [outcome] at meets
    obtain ⟨unheld, consistent, keeps, ⟨error, rfl⟩, missing⟩ := meets
    have unindexed : disk.cas.index.find hash = none := by
      cases found : disk.cas.index.find hash with
      | none => rfl
      | some entry =>
        obtain ⟨record, held⟩ := clean.honest hash entry found
        simp [held] at unheld
    obtain rfl : error = .storage (.notFound hash) := Fault.err.inj (missing unindexed)
    refine ⟨_, _, observe_of_err outcome, ⟨keeps.clean clean consistent.toAttached,
      keeps.lives alive, Nat.le_of_eq keeps.current.symm, .inl ?_⟩, keeps.still⟩
    simp only [View.answer, unheld]
    exact congrArg _ (keeps.view clean.toAttached)

/-- One call on a clean store returns, and answers as the abstract store does. -/
theorem call_answered (call : CasCall) (takes : disk.TakesCall call)
    : ∃ reply next, CasDisk.call call disk = .ok reply next ∧ disk.Answered call reply next
        ∧ disk.Moves next := by
  cases call with
  | put recordType payload =>
    obtain ⟨result, next, ran, answered⟩ := put_answered clean alive recordType takes
    exact ⟨_, next, by rw [CasDisk.call, map_apply, ran], answered⟩
  | getRecord hash =>
    obtain ⟨result, next, ran, answered, still⟩ := getPayload_answered clean alive hash
    exact ⟨_, next, by rw [CasDisk.call, map_apply, ran], answered, .inl still⟩
  | flush =>
    obtain ⟨_, next, ran, attached, keeps, -⟩ :=
      (flush_meets clean.toAttached).returns fun reason next halts => halts.1.2 alive
    refine ⟨_, next, by rw [CasDisk.call, map_apply, observe_of_ok ran],
      ⟨keeps.clean clean attached, keeps.lives alive, Nat.le_of_eq keeps.current.symm, .inl ?_⟩,
      .inl keeps.still⟩
    rw [View.answer, keeps.view clean.toAttached]
  | setObjectCacheCap cap =>
    refine ⟨_, _, rfl, ⟨clean.recache (fun hash record found => ?_), alive, Nat.le_refl _,
      .inl rfl⟩, .inl ⟨rfl, rfl, fun _ _ => rfl⟩⟩
    simp at found
  | setMmapCap cap =>
    have keeps := keeps_remap disk
      (CasStore.unmapOldest disk.cas.segmentMaps.length cap disk.cas.segmentMaps)
      disk.cas.dirty cap
    refine ⟨_, _, rfl, ⟨keeps.clean clean ?_, alive, Nat.le_refl _, .inl ?_⟩, .inl keeps.still⟩
    · exact clean.toAttached.remap disk.cas.dirty cap fun _ _ => lookup_unmapOldest
    · exact congrArg _ (keeps.view clean.toAttached)
  | reopen =>
    obtain ⟨middle, keeps, stillClean, ran⟩ := reopen_spec clean alive
    refine ⟨_, middle.renewed, by rw [CasDisk.call, map_apply, observe_of_ok ran],
      ⟨stillClean.renewed, keeps.lives alive, Nat.le_of_eq keeps.current.symm, .inl ?_⟩,
      .inl ⟨keeps.index, keeps.current, keeps.segmentBytes⟩⟩
    exact congrArg _ (keeps.view clean.toAttached)

end Calls

-- Whole runs

/-- The number of segments never drops. -/
theorem calls_segments (clean : disk.Clean) (alive : disk.world.deadline = none)
    {calls : List CasCall} (fits : ∀ call ∈ calls, call.Fits)
    : disk.cas.currentSegmentId
      ≤ (stateOf (calls.mapM CasDisk.call disk)).cas.currentSegmentId := by
  induction calls generalizing disk with
  | nil => exact Nat.le_refl _
  | cons call rest ih =>
    obtain ⟨reply, next, ran, ⟨stillClean, stillAlive, more, -⟩, -⟩ :=
      call_answered clean alive call (disk.takesCall_of_fits (fits call (by simp)))
    have later := ih stillClean stillAlive fun other member => fits other (by simp [member])
    rw [stateOf_mapM_cons ran]
    exact Nat.le_trans more later

/-- Two stores that hold the same give the same replies to the same calls. -/
theorem calls_simulate (clean : disk.Clean) (alive : disk.world.deadline = none) {mem : MemCas}
    (same : disk.view = mem.view) {calls : List CasCall} (fits : ∀ call ∈ calls, call.Fits)
    (segments
      : (stateOf (calls.mapM CasDisk.call disk)).cas.currentSegmentId + 1 < 2 ^ 16)
    : ∃ replies next nextMem, calls.mapM CasDisk.call disk = .ok replies next
        ∧ calls.mapM MemCas.call mem = .ok replies nextMem := by
  induction calls generalizing disk mem with
  | nil => exact ⟨[], disk, mem, rfl, rfl⟩
  | cons call rest ih =>
    have room := calls_segments clean alive fits
    have restFits : ∀ other ∈ rest, other.Fits := fun other member => fits other (by simp [member])
    obtain ⟨reply, next, ran, ⟨stillClean, stillAlive, -, answered⟩, -⟩ :=
      call_answered clean alive call (disk.takesCall_of_fits (fits call (by simp)))
    obtain ⟨nextMem, ranMem, seen⟩ := mem.call_answer call
    have agrees : (reply, next.view) = mem.view.answer call := by
      rcases answered with agrees | full
      · rw [agrees, same]
      · omega
    have replySame : (mem.view.answer call).1 = reply := congrArg Prod.fst agrees.symm
    have viewSame : next.view = nextMem.view := by
      rw [seen]
      exact congrArg Prod.snd agrees
    rw [replySame] at ranMem
    rw [stateOf_mapM_cons ran] at segments
    obtain ⟨replies, last, lastMem, later, laterMem⟩ :=
      ih stillClean stillAlive viewSame restFits segments
    exact ⟨reply :: replies, last, lastMem, mapM_cons_of_ok ran later,
      mapM_cons_of_ok ranMem laterMem⟩

/-- On a repository that held nothing, every run of calls gets the same replies from the store
on disk as from the in-memory store, as long as it makes fewer than 65536 segments.
-/
theorem calls_eq_memCas {world : World} {repoPath : Path} {calls : List CasCall}
    (formed : world.fs.WellFormed) (alive : world.deadline = none)
    (vacant : Vacant world.fs repoPath)
    (opens : CasStore.open_ repoPath world = .ok disk.cas disk.world)
    (fits : ∀ call ∈ calls, call.Fits)
    (segments : (Run.stateOf (calls.mapM CasDisk.call disk)).cas.currentSegmentId + 1 < 2 ^ 16)
    : ∃ replies last lastMem,
        calls.mapM CasDisk.call disk = .ok replies last
        ∧ calls.mapM MemCas.call MemCas.new = .ok replies lastMem := by
  obtain ⟨opened, lives⟩ := (open_meets formed repoPath).of_ok opens
  obtain ⟨clean, empty⟩ := opened.clean (vacant _ _) fun name => vacant "data" [name]
  refine calls_simulate clean (lives alive) ?_ fits segments
  funext hash
  rw [MemCas.view_new]
  exact empty hash

end CasDisk
end Answers

-- A run with a read from a reopened store

section Linked

attribute [local instance] Blake3.linked

def reopenedCalls : List CasCall :=
  [.put .hamtLeaf [1, 2, 3], .getRecord (Hash.ofBytes [1, 2, 3]), .setObjectCacheCap 1, .reopen,
    .setMmapCap 0, .getRecord (Hash.ofBytes [1, 2, 3]), .put .commit [1, 2, 3],
    .getRecord (Hash.ofBytes [1, 2, 3]), .flush, .getRecord Hash.zero]

theorem calls_eq_memCas_reopenedCalls
    : ∃ replies last lastMem,
        reopenedCalls.mapM CasDisk.call CasDisk.bare = .ok replies last
        ∧ reopenedCalls.mapM MemCas.call MemCas.new = .ok replies lastMem :=
  CasDisk.calls_eq_memCas FileSystem.wellFormed_empty rfl (CasDisk.vacant_bare ["repo"])
    CasDisk.open_eq_bare (by decide) (by decide +kernel)

end Linked
end Epochs
