import Epochs.Store.Start

/-! Making commits. A commit whose lengths fit is held under its id and read back, when no other
object was handed over with its hash; one that fails to be made leaves the commits as they were.
-/

namespace Epochs

open Lib Run

-- Objects told apart by their hashes

namespace Traced

variable [Blake3]

/-- Objects with the same hash are the same: no two payloads collide, and no payload was handed
over as an object of two types.
-/
def Unmixed (handed : List (RecordType × Bytes)) : Prop :=
  ∀ first ∈ handed, ∀ second ∈ handed, Hash.ofBytes first.2 = Hash.ofBytes second.2
    → first = second

instance (handed : List (RecordType × Bytes)) : Decidable (Unmixed handed) :=
  inferInstanceAs (Decidable (∀ first ∈ handed, ∀ second ∈ handed, _ → _))

theorem Unmixed.of_prefix {before after : List (RecordType × Bytes)} (unmixed : Unmixed after)
    (grows : before <+: after)
    : Unmixed before :=
  fun first member second other => unmixed first (grows.subset member) second (grows.subset other)

end Traced

namespace View

variable {view : View} {hash other : Hash} {record : RecordType × Bytes}

theorem commit_of_held {commit : Commit} (held : view hash = some (.commit, commit.encodePayload))
    (fits : commit.Fits)
    : view.commit hash = some commit :=
  commit_eq_some.mpr ⟨_, held, Commit.decodePayload_encodePayload fits⟩

theorem commit_add_of_ne (different : other ≠ hash)
    : (view.add hash record).commit other = view.commit other := by
  unfold View.commit
  rw [show view.add hash record other = view other from if_neg different]

end View

namespace DiskStore

variable [Blake3] {store last : DiskStore} {hash : Hash}

/-- What a store holds under the hash of an object that is handed over is that object. -/
theorem eq_of_held (sane : store.cas.store.Sane) (told : store.cas.Told)
    {object record : RecordType × Bytes} {later : List (RecordType × Bytes)}
    (unmixed : Traced.Unmixed (store.cas.handed ++ object :: later))
    (held : store.view (Hash.ofBytes object.2) = some record)
    : record = object :=
  unmixed record (List.mem_append_left _ (told _ _ held)) object
    (List.mem_append_right _ List.mem_cons_self) (sane.1.keyed _ _ held)

-- Flushing

theorem flushCas_returns (sane : store.cas.store.Sane)
    : ∃ next, flushCas store = .ok () next ∧ next.commitCache = store.commitCache := by
  obtain ⟨disk, flushed, -⟩ := CasDisk.flush_returns sane.1.toAttached sane.2
  refine ⟨{ store with cas := { store := disk, handed := store.cas.handed } }, ?_, rfl⟩
  rw [flushCas, onCas, zoom, Traced.onStore_apply, flushed]

/-- A flush that is due is made, and keeps the cache of commits. -/
theorem flushIfDue_returns (sane : store.cas.store.Sane)
    : ∃ next, flushIfDue store = .ok () next ∧ next.commitCache = store.commitCache := by
  rw [flushIfDue, get_bind_apply]
  rw [get_bind_apply]
  split
  · obtain ⟨next, flushed, cache⟩ := flushCas_returns sane
    refine ⟨{ next with commitsSinceFsync := 0 }, ?_, cache⟩
    rw [flush, bind_of_ok flushed, modify_apply]
  · exact ⟨store, rfl, rfl⟩

-- Commits that are made

structure Records (commit : Commit) (before after : DiskStore) : Prop extends
    Serves before after where
  handed : after.cas.handed = before.cas.handed ++ [(.commit, commit.encodePayload)]
  cache : after.commitCache = before.commitCache.insert commit.id commit
  view : after.view = before.view.add commit.id (.commit, commit.encodePayload)

/-- Once the record of a commit is written, nothing more is handed over. -/
theorem handed_of_put {commit : Commit} {first : DiskStore}
    (put : onCas (Traced.put .commit commit.encodePayload) store = .ok hash first)
    : (stateOf (persistCommit commit store)).cas.handed = first.cas.handed := by
  rw [persistCommit, bind_of_ok put, bind_apply, modify_apply]
  dsimp only
  have looks := Within.bind looks_frame flushIfDue_looks (fun _ => .pure looks_frame hash)
    { first with
      commitCache := first.commitCache.insert hash commit
      commitsSinceFsync := first.commitsSinceFsync + 1 }
  exact looks.handed

/-- A commit whose record was written is cached and returned. -/
theorem persistCommit_of_put {commit : Commit} {first : DiskStore}
    (put : onCas (Traced.put .commit commit.encodePayload) store = .ok hash first)
    (sane : store.cas.store.Sane) (roomy : Traced.Roomy first.cas.handed)
    : ∃ next, persistCommit commit store = .ok commit.id next ∧ hash = commit.id
        ∧ Records commit store next := by
  have serves := putCommit_serves commit.encodePayload store
  have cache := onCas_cache (Traced.put .commit commit.encodePayload) store
  rw [put, stateOf_ok] at serves cache
  have written : first.cas.store.Sane := serves.objects.sane sane roomy
  obtain ⟨same, view⟩ := put_eq_ok sane roomy put
  let cached : DiskStore := { first with
    commitCache := first.commitCache.insert hash commit
    commitsSinceFsync := first.commitsSinceFsync + 1 }
  obtain ⟨next, flushed, kept⟩ := @flushIfDue_returns _ cached written
  have looks := flushIfDue_looks.of_ok flushed
  have ran : persistCommit commit store = .ok hash next := by
    rw [persistCommit, bind_of_ok put, bind_apply, modify_apply]
    exact bind_of_ok flushed
  have all := (persistCommit_serves commit).of_ok ran
  have own : hash = commit.id := same
  have handed : next.cas.handed = first.cas.handed := looks.handed
  refine ⟨next, own ▸ ran, own, all, handed.trans (put_handed put), ?_, ?_⟩
  · rw [kept, ← own, ← cache]
  · rw [← own]
    exact (looks.objects.view written).trans view

theorem persistCommit_eq_ok (sane : store.cas.store.Sane) {commit : Commit}
    (roomy : Traced.Roomy last.cas.handed) (ran : persistCommit commit store = .ok hash last)
    : hash = commit.id ∧ Records commit store last := by
  obtain ⟨written, first, put, -⟩ := bind_eq_ok.mp ran
  have handed := handed_of_put put
  rw [ran, stateOf_ok] at handed
  obtain ⟨next, returned, -, records⟩ := persistCommit_of_put put sane (handed ▸ roomy)
  cases returned.symm.trans ran
  exact ⟨rfl, records⟩

/-- It is in the cache. -/
theorem Records.cached {commit : Commit} (records : Records commit store last)
    : last.commitCache.get commit.id = some commit := by
  rw [records.cache]
  exact LruMap.get_insert_self _ _ _

omit [Blake3] in
theorem flushIfDue_cache
    : Within (fun before after => after.commitCache = before.commitCache) flushIfDue := by
  intro store
  rw [flushIfDue, get_bind_apply]
  rw [get_bind_apply]
  split
  · have kept := onCas_cache (Traced.onStore CasDisk.flush) store
    rw [flush, bind_apply]
    cases flushed : flushCas store with
    | ok value next =>
      rw [show onCas (Traced.onStore CasDisk.flush) store = _ from flushed] at kept
      exact kept
    | error fault next =>
      rw [show onCas (Traced.onStore CasDisk.flush) store = _ from flushed] at kept
      exact kept
  · rfl

/-- However the store stands, a commit that was made is in the cache under the hash returned. -/
theorem cached_of_persistCommit {commit : Commit} (ran : persistCommit commit store = .ok hash last)
    : last.commitCache.get hash = some commit := by
  obtain ⟨written, first, -, made⟩ := bind_eq_ok.mp ran
  rw [bind_apply, modify_apply] at made
  dsimp only at made
  obtain ⟨_, flushed, due, done⟩ := bind_eq_ok.mp made
  have kept := flushIfDue_cache.of_ok due
  cases done
  rw [kept]
  exact LruMap.get_insert_self _ _ _

namespace Records

variable {commit : Commit} (records : Records commit store last)
  (clear : ∀ record, store.view commit.id = some record
    → record = (.commit, commit.encodePayload))
include records clear

/-- The commit is held under its id. -/
theorem held : last.view commit.id = some (.commit, commit.encodePayload) := by
  rw [records.view]
  exact View.add_self clear

/-- The commits are those before and the one that was made. -/
theorem commits (fits : commit.Fits) (other : Hash)
    : last.view.commit other = if other = commit.id then some commit else store.view.commit other := by
  split
  · rename_i same
    rw [same]
    exact View.commit_of_held (records.held clear) fits
  · rename_i different
    rw [records.view, View.commit_add_of_ne different]

theorem coherent (fits : commit.Fits) (coherent : store.Coherent) : last.Coherent := by
  intro other found cached
  rw [records.cache] at cached
  rw [records.commits clear fits]
  rcases LruMap.get_insert cached with ⟨rfl, rfl⟩ | old
  · simp
  · split
    · rename_i same
      have before := coherent other found old
      have after := records.commits clear fits other
      have more : store.view.Extends last.view := by
        rw [records.view]
        exact View.extends_add _ _ _
      rw [if_pos same, more.commit before] at after
      exact after.symm
    · exact coherent other found old

end Records

/-- Where objects are told apart by their hashes, nothing else is held under a commit's id. -/
theorem Records.clear {commit : Commit} (records : Records commit store last)
    (sane : store.cas.store.Sane) (told : store.cas.Told)
    (unmixed : Traced.Unmixed last.cas.handed)
    : ∀ record, store.view commit.id = some record
      → record = (.commit, commit.encodePayload) := by
  rw [records.handed] at unmixed
  exact fun record held => eq_of_held sane told unmixed held

variable {parents : List Hash}

omit [Blake3] in
theorem checkParents_eq_ok (ran : checkParents parents store = .ok () last)
    : last = store ∧ ∀ parent ∈ parents, store.cas.store.cas.contains parent = true := by
  induction parents with
  | nil =>
    cases ran
    exact ⟨rfl, by simp⟩
  | cons parent rest ih =>
    rw [checkParents, contains, bind_assoc, get_bind_apply] at ran
    rw [pure_bind] at ran
    cases found : store.cas.store.cas.contains parent with
    | false =>
      rw [found] at ran
      cases ran
    | true =>
      rw [found] at ran
      obtain ⟨same, others⟩ := ih ran
      exact ⟨same, List.forall_mem_cons.mpr ⟨found, others⟩⟩

/-- What an index entry points at is held. -/
theorem held_of_contains (sane : store.cas.store.Sane)
    (found : store.cas.store.cas.contains hash = true)
    : ∃ record, store.view hash = some record := by
  cases pointed : store.cas.store.cas.index.find hash with
  | none =>
    rw [CasStore.contains, Index.contains_eq_false.mpr pointed] at found
    cases found
  | some entry => exact sane.1.honest hash entry pointed

/-- The timestamp a world has for the next commit with index roots. -/
def clockStamp (world : World) : Nat := world.clock world.readings % 2 ^ 64

/-- The timestamp it has for the next commit of a data root alone. -/
def nextStamp (world : World) : Nat :=
  if world.timestamps % 2 ^ 64 = 0 then clockStamp world else world.timestamps % 2 ^ 64

omit [Blake3] in
theorem nowMillis_eq_ok {now : Nat} (ran : onWorld World.nowMillis store = .ok now last)
    : now = clockStamp store.world ∧ now < 2 ^ 64 := by
  rw [onWorld, zoom] at ran
  cases ran
  exact ⟨rfl, Nat.mod_lt _ (by decide)⟩

omit [Blake3] in
theorem nextTimestamp_eq_ok {now : Nat} (ran : onWorld nextTimestamp store = .ok now last)
    : now = nextStamp store.world ∧ now < 2 ^ 64 := by
  rw [onWorld, zoom, nextTimestamp, get_bind_apply] at ran
  rw [bind_apply, modify_apply] at ran
  dsimp only at ran
  by_cases first : store.world.timestamps % 2 ^ 64 = 0
  · rw [if_pos first] at ran
    cases ran
    exact ⟨(if_pos first).symm, Nat.mod_lt _ (by decide)⟩
  · rw [if_neg first] at ran
    cases ran
    exact ⟨(if_neg first).symm, Nat.mod_lt _ (by decide)⟩

theorem Records.of_looks {commit : Commit} {middle : DiskStore}
    (records : Records commit middle last) (looks : Looks store middle)
    (cache : middle.commitCache = store.commitCache) (sane : store.cas.store.Sane)
    : Records commit store last where
  toServes := serves_frame.trans looks.calls.toServes records.toServes
  handed := by rw [records.handed, looks.handed]
  cache := by rw [records.cache, cache]
  view := by rw [records.view, show middle.view = store.view from looks.objects.view sane]

variable {rootHamt : Hash} {message : String}

/-- A commit that was made with a timestamp of the world, its parents stored before. -/
theorem stamped_eq_ok {tick : Run EpochsError World Nat} {build : Nat → Commit}
    (ticks : Within Looks (onWorld tick)) (sane : store.cas.store.Sane)
    (roomy : Traced.Roomy last.cas.handed)
    (ran : (do checkParents parents; let now ← onWorld tick; persistCommit (build now)) store
      = .ok hash last)
    : (∀ parent ∈ parents, ∃ record, store.view parent = some record)
      ∧ ∃ now middle, onWorld tick store = .ok now middle
        ∧ hash = (build now).id ∧ Records (build now) store last := by
  obtain ⟨_, first, checked, made⟩ := bind_eq_ok.mp ran
  obtain ⟨now, second, clock, made⟩ := bind_eq_ok.mp made
  obtain ⟨rfl, stored⟩ := checkParents_eq_ok checked
  have looks := ticks.of_ok clock
  have cache := (onWorld_cache tick).of_ok clock
  obtain ⟨same, records⟩ := persistCommit_eq_ok (looks.objects.sane sane) roomy made
  exact ⟨fun parent member => held_of_contains sane (stored parent member), now, second, clock, same,
    records.of_looks looks cache sane⟩

theorem commitWithIndexes_eq_ok (sane : store.cas.store.Sane)
    {indexRoots : SortedMap String Hash}
    (roomy : Traced.Roomy last.cas.handed)
    (ran : commitWithIndexes parents rootHamt indexRoots message store = .ok hash last)
    : (∀ parent ∈ parents, ∃ record, store.view parent = some record)
      ∧ ∃ now < 2 ^ 64, now = clockStamp store.world
        ∧ let commit := Commit.withIndexes parents rootHamt now message indexRoots
          hash = commit.id ∧ Records commit store last := by
  obtain ⟨held, now, _, clock, made⟩ := stamped_eq_ok nowMillis_looks sane roomy ran
  exact ⟨held, now, (nowMillis_eq_ok clock).2, (nowMillis_eq_ok clock).1, made⟩

theorem commitWithRoot_eq_ok (sane : store.cas.store.Sane)
    (roomy : Traced.Roomy last.cas.handed)
    (ran : commitWithRoot parents rootHamt message store = .ok hash last)
    : (∀ parent ∈ parents, ∃ record, store.view parent = some record)
      ∧ ∃ now < 2 ^ 64, now = nextStamp store.world
        ∧ let commit := Commit.new parents rootHamt now message
          hash = commit.id ∧ Records commit store last := by
  obtain ⟨held, now, _, clock, made⟩ := stamped_eq_ok nextTimestamp_looks sane roomy ran
  exact ⟨held, now, (nextTimestamp_eq_ok clock).2, (nextTimestamp_eq_ok clock).1, made⟩

omit [Blake3] in
theorem checkParents_of_contains
    (stored : ∀ parent ∈ parents, store.cas.store.cas.contains parent = true)
    : checkParents parents store = .ok () store := by
  induction parents with
  | nil => rfl
  | cons parent rest ih =>
    rw [checkParents, contains, bind_assoc, get_bind_apply]
    rw [pure_bind, stored parent List.mem_cons_self]
    exact ih fun other member => stored other (List.mem_cons_of_mem _ member)

/-- While a segment number is left, a commit whose record fits is stored. -/
theorem persistCommit_returns (sane : store.cas.store.Sane)
    (room : store.cas.store.cas.currentSegmentId + 1 < 2 ^ 16) {commit : Commit}
    (roomy : Traced.Roomy (store.cas.handed ++ [(.commit, commit.encodePayload)]))
    : ∃ next, persistCommit commit store = .ok commit.id next
        ∧ Records commit store next := by
  have fits : commit.encodePayload.length + 45 < 2 ^ 32 :=
    roomy (.commit, commit.encodePayload) (by simp)
  have wrote : ∃ hash disk, CasDisk.put .commit commit.encodePayload store.cas.store
      = .ok hash disk := by
    rcases CasDisk.put_cases sane.valid .commit (.inl fits) with
      ⟨written, -⟩ | ⟨-, next, entry, written, -⟩ | ⟨-, error, next, -, refuses⟩
    · exact ⟨_, _, written⟩
    · exact ⟨_, _, written⟩
    · exact absurd refuses.2.1 (by omega)
  obtain ⟨hash, disk, written⟩ := wrote
  have put : onCas (Traced.put .commit commit.encodePayload) store
      = .ok hash { store with
        cas := { store := disk, handed := store.cas.handed ++ [(.commit, commit.encodePayload)] } } := by
    rw [onCas, zoom, Traced.put_apply, Traced.onStore_apply]
    simp only [Traced.handOver]
    rw [show CasBackend.put .commit commit.encodePayload store.cas.store = _ from written]
  obtain ⟨next, ran, -, records⟩ := persistCommit_of_put put sane roomy
  exact ⟨next, ran, records⟩

/-- While a segment number is left, a commit whose parents are stored is made. -/
theorem commitWithRoot_returns (sane : store.cas.store.Sane)
    (room : store.cas.store.cas.currentSegmentId + 1 < 2 ^ 16)
    (stored : ∀ parent ∈ parents, store.cas.store.cas.contains parent = true)
    (roomy : ∀ now, Traced.Roomy
      (store.cas.handed ++ [(.commit, (Commit.new parents rootHamt now message).encodePayload)]))
    : ∃ now next, commitWithRoot parents rootHamt message store
          = .ok (Commit.new parents rootHamt now message).id next
        ∧ Records (Commit.new parents rootHamt now message) store next := by
  have ticks : ∃ now world, nextTimestamp store.world = .ok now world := by
    rw [nextTimestamp, get_bind_apply]
    rw [bind_apply, modify_apply]
    dsimp only
    split <;> exact ⟨_, _, rfl⟩
  obtain ⟨now, world, ticked⟩ := ticks
  have clock : onWorld nextTimestamp store = .ok now (store.setWorld world) := by
    rw [onWorld, zoom, ticked]
  have looks := nextTimestamp_looks.of_ok clock
  obtain ⟨next, made, records⟩ := @persistCommit_returns _ (store.setWorld world)
    (looks.objects.sane sane) room (Commit.new parents rootHamt now message) (roomy now)
  refine ⟨now, next, ?_, records.of_looks looks rfl sane⟩
  rw [commitWithRoot, bind_of_ok (checkParents_of_contains stored), bind_of_ok clock, made]

-- Commits that are not made

/-- A write that fails leaves what is held. -/
theorem put_halts (payload : Bytes) : Halts Calls (onCas (Traced.put .commit payload)) := by
  intro store reason last ran
  have serves := putCommit_serves payload store
  have cache := onCas_cache (Traced.put .commit payload) store
  rw [ran, stateOf_error] at serves cache
  have view (sane : store.cas.store.Sane) (roomy : Traced.Roomy last.cas.handed)
      : last.view = store.view := by
    have handed := Traced.put_handed .commit payload store.cas
    rw [onCas, zoom] at ran
    cases wrote : Traced.put .commit payload store.cas with
    | ok value cas =>
      rw [wrote] at ran
      cases ran
    | error fault cas =>
      rw [wrote] at ran handed
      cases ran
      have fits : payload.length + 45 < 2 ^ 32 := by
        rw [show (stateOf (EStateM.Result.error reason cas)).handed = _ from rfl] at handed
        exact roomy (.commit, payload) (by simp [show cas.handed = _ from handed])
      rw [Traced.put_apply, Traced.onStore_apply] at wrote
      simp only [Traced.handOver] at wrote
      rcases CasDisk.put_cases sane.valid .commit (.inl fits) with
        ⟨written, -⟩ | ⟨-, next, entry, written, -⟩ | ⟨-, error, next, written, refuses⟩
      all_goals rw [show CasBackend.put .commit payload store.cas.store = _ from written] at wrote
      · cases wrote
      · cases wrote
      · cases wrote
        exact refuses.2.2.2.view sane.1.toAttached
  refine ⟨serves, fun sane roomy coherent => ?_, fun sane roomy => ?_⟩
  · exact coherent.of_extends cache (view sane roomy ▸ View.Extends.refl _)
  · rw [view sane roomy]

theorem persistCommit_halts (commit : Commit) : Halts Calls (persistCommit commit) := by
  intro store reason last ran
  have serves := persistCommit_serves commit store
  rw [ran, stateOf_error] at serves
  cases put : onCas (Traced.put .commit commit.encodePayload) store with
  | error fault first =>
    rw [persistCommit, bind_of_error put] at ran
    cases ran
    exact put_halts _ _ _ _ put
  | ok hash first =>
    -- The record was written, and a clean store then fails no more.
    have handed := handed_of_put put
    rw [ran, stateOf_error] at handed
    have returns (sane : store.cas.store.Sane) (roomy : Traced.Roomy last.cas.handed)
        : False := by
      obtain ⟨next, returned, -⟩ := persistCommit_of_put put sane (handed ▸ roomy)
      cases returned.symm.trans ran
    exact ⟨serves, fun sane roomy => (returns sane roomy).elim,
      fun sane roomy => (returns sane roomy).elim⟩

theorem commitWithIndexes_halts (parents : List Hash) (rootHamt : Hash)
    (indexRoots : SortedMap String Hash) (message : String)
    : Halts Calls (commitWithIndexes parents rootHamt indexRoots message) :=
  .bind calls_frame (checkParents_within calls_frame parents) fun _ =>
    .bind calls_frame (calls_of_looks nowMillis_looks) fun _ => persistCommit_halts _

end DiskStore
end Epochs
