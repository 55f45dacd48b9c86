import Epochs.Store.Histories

/-! Sessions with a store: calls of its operations one after the other, each of which returns. -/

namespace Epochs

open Lib Run

/-- One call of an operation of a store. -/
inductive StoreCall where
  | applyHamtOps (root : Option Hash) (ops : List HamtOp)
  | indexPut (indexRoot : Option Hash) (key value : Bytes)
  | indexRemove (indexRoot : Option Hash) (key : Bytes)
  | commit (parents : List Hash) (root : Option Hash) (ops : List HamtOp) (message : String)
  | commitWithRoot (parents : List Hash) (rootHamt : Hash) (message : String)
  | commitWithIndexes (parents : List Hash) (rootHamt : Hash)
      (indexRoots : SortedMap String Hash) (message : String)
  | getCommit (hash : Hash)
  | createBranch (name : String) (target : Hash)
  | updateBranch (name : String) (target : Hash)
  | deleteBranch (name : String)
  | setHead (name : String)
  | configureCaches (objectCap commitCap mmapSegments : Nat)
  | reopen

namespace StoreCall

variable [Blake3]

def run (fuel : Nat) : StoreCall → Run EpochsError DiskStore (Option Hash)
  | applyHamtOps root ops => some <$> DiskStore.applyHamtOps fuel root ops
  | indexPut indexRoot key value => some <$> DiskStore.indexPut fuel indexRoot key value
  | indexRemove indexRoot key => DiskStore.indexRemove fuel indexRoot key
  | commit parents root ops message => some <$> DiskStore.commit fuel parents root ops message
  | commitWithRoot parents rootHamt message =>
    some <$> DiskStore.commitWithRoot parents rootHamt message
  | commitWithIndexes parents rootHamt indexRoots message =>
    some <$> DiskStore.commitWithIndexes parents rootHamt indexRoots message
  | getCommit hash => (fun _ => none) <$> DiskStore.getCommit hash
  | createBranch name target => (fun _ => none) <$> DiskStore.createBranch name target
  | updateBranch name target => (fun _ => none) <$> DiskStore.updateBranch name target
  | deleteBranch name => (fun _ => none) <$> DiskStore.deleteBranch name
  | setHead name => (fun _ => none) <$> DiskStore.setHead name
  | configureCaches objectCap commitCap mmapSegments =>
    (fun _ => none) <$> DiskStore.configureCaches objectCap commitCap mmapSegments
  | reopen => (fun _ => none) <$> DiskStore.reopen

/-- The parents, message and index roots of the commit a call makes, if it makes one. -/
def drafts : StoreCall → Option (List Hash × String × SortedMap String Hash)
  | commit parents _ _ message => some (parents, message, SortedMap.empty)
  | commitWithRoot parents _ message => some (parents, message, SortedMap.empty)
  | commitWithIndexes parents _ indexRoots message => some (parents, message, indexRoots)
  | _ => none

def Fits (call : StoreCall) : Prop :=
  ∀ parents message indexRoots, call.drafts = some (parents, message, indexRoots)
    → parents.length < 256 ∧ (Utf8.encode message).length < 65536 ∧ indexRoots.size < 65536
      ∧ ∀ entry ∈ indexRoots.entries, (Utf8.encode entry.1).length < 65536

omit [Blake3] in
theorem fits_iff {call : StoreCall} {commit : Commit}
    (drafts : call.drafts = some (commit.parents, commit.message, commit.indexRoots))
    (dated : commit.timestamp < 2 ^ 64)
    : call.Fits ↔ commit.Fits := by
  constructor
  · intro fits
    obtain ⟨parents, message, indexes, names⟩ := fits _ _ _ drafts
    exact ⟨parents, dated, message, indexes, names⟩
  · rintro ⟨parents, -, message, indexes, names⟩ _ _ _ same
    cases drafts.symm.trans same
    exact ⟨parents, message, indexes, names⟩

def sets : StoreCall → Option (String × Repo.RefOp)
  | createBranch name target => some (name, .create target)
  | updateBranch name target => some (name, .update target)
  | deleteBranch name => some (name, .delete)
  | _ => none

end StoreCall

namespace DiskStore

variable [Blake3] {store last : DiskStore}

/-- A session: each call is allowed in the state it is made in, and returns. -/
def Session (allowed : DiskStore → StoreCall → Prop)
    : DiskStore → List StoreCall → DiskStore → Prop
  | store, [], last => last = store
  | store, call :: calls, last =>
    allowed store call
    ∧ ∃ fuel reply next, call.run fuel store = .ok reply next ∧ Session allowed next calls last

-- Empty caches

/-- A step that leaves objects and refs and empties the cache of commits. -/
structure Renews (before after : DiskStore) : Prop where
  settled : after.Settled
  view : after.view = before.view
  handed : after.cas.handed = before.cas.handed
  tips : ∀ parts, after.tip parts = before.tip parts
  empty : ∀ hash, after.commitCache.get hash = none

theorem Renews.coherent {before after : DiskStore} (renews : Renews before after)
    : after.Coherent := by
  intro hash commit cached
  rw [renews.empty] at cached
  cases cached

theorem configureCaches_renews (settled : store.Settled) (objectCap commitCap mmapSegments : Nat)
    : ∃ next, configureCaches objectCap commitCap mmapSegments store = .ok () next
        ∧ Renews store next := by
  have clean := settled.sane.1
  have emptied := @CasDisk.Clean.recache _ store.cas.store clean (LruMap.new objectCap)
    fun _ _ found => by cases found
  let maps := CasStore.unmapOldest store.cas.store.cas.segmentMaps.length mmapSegments
    store.cas.store.cas.segmentMaps
  have attached := @CasDisk.Attached.remap _ emptied.toAttached maps store.cas.store.cas.dirty
    mmapSegments fun _ _ => CasDisk.lookup_unmapOldest
  have keeps := CasDisk.keeps_remap (store.cas.store.recache (LruMap.new objectCap)) maps
    store.cas.store.cas.dirty mmapSegments
  have view := keeps.view emptied.toAttached
  refine ⟨_, rfl, ⟨⟨keeps.clean emptied attached, settled.sane.2⟩, fun hash record held => ?_,
    settled.home, settled.stands, settled.tidy, settled.near⟩, view, rfl, fun _ => rfl,
    fun _ => rfl⟩
  exact settled.told hash record ((congrFun view hash).symm.trans held)

/-- A store that is opened has a HEAD file that can be read, or none. -/
theorem headAt_of_reopen (settled : store.Settled) (ran : reopen store = .ok () last)
    : ∃ head, Repo.headAt store.world.fs store.repo.path = .ok head := by
  obtain ⟨flushed, returned, -⟩ := flushCas_returns settled.sane
  have looks := flushCas_looks.of_ok returned
  rw [reopen, bind_of_ok (observe_of_ok returned), get_bind_apply] at ran
  dsimp only at ran
  obtain ⟨opened, next, ran, -⟩ := bind_eq_ok.mp ran
  rw [onWorld, zoom] at ran
  rw [← headAt_of_looks settled looks, ← looks.repo]
  cases reread : open_ flushed.repo.path flushed.world with
  | error reason world =>
    rw [reread] at ran
    cases ran
  | ok store world =>
    obtain ⟨repo, first, openedRepo, -⟩ := bind_eq_ok.mp reread
    rw [Repo.open_, bind_of_ok (World.exists_apply _ _)] at openedRepo
    split at openedRepo
    · cases openedRepo
    · obtain ⟨head, second, readHead, -⟩ := bind_eq_ok.mp openedRepo
      rw [Repo.readHead_apply] at readHead
      cases headed : Repo.headAt flushed.world.fs flushed.repo.path with
      | ok head => exact ⟨head, rfl⟩
      | error error =>
        rw [headed] at readHead
        cases readHead

theorem reopen_renews (settled : store.Settled) (ran : reopen store = .ok () last)
    : Renews store last := by
  obtain ⟨head, read⟩ := headAt_of_reopen settled ran
  obtain ⟨next, opened, after, view, repo, handed, cache, -, files⟩ := reopen_spec settled read
  cases opened.symm.trans ran
  refine ⟨after, view, handed, fun parts => ?_, fun hash => by rw [cache, LruMap.get_new]⟩
  rw [tip, tip, Repo.tip, Repo.tip, repo, files _ (store.repo.aside_heads parts)]

-- What calls do

/-- What a call that returned did. -/
inductive Effect (store : DiskStore) (call : StoreCall) : Option Hash → DiskStore → Prop where
  | stored {reply : Option Hash} {last : DiskStore} (drafts : call.drafts = none)
      (sets : call.sets = none) (calls : Calls store last)
      : Effect store call reply last
  | made {commit : Commit} {middle last : DiskStore} (sets : call.sets = none)
      (drafts : call.drafts = some (commit.parents, commit.message, commit.indexRoots))
      (dated : commit.timestamp < 2 ^ 64) (calls : Calls store middle)
      (parents : ∀ parent ∈ commit.parents, ∃ record, middle.view parent = some record)
      (records : Records commit middle last)
      : Effect store call (some commit.id) last
  | moved {name : String} {op : Repo.RefOp} {last : DiskStore} (drafts : call.drafts = none)
      (sets : call.sets = some (name, op)) (ran : refOp name op store = .ok () last)
      : Effect store call none last
  | headed {name : String} {last : DiskStore} (drafts : call.drafts = none)
      (sets : call.sets = none) (ran : setHead name store = .ok () last)
      : Effect store call none last
  | renewed {last : DiskStore} (drafts : call.drafts = none) (sets : call.sets = none)
      (renews : Renews store last)
      : Effect store call none last

omit [Blake3] in
/-- A ref is changed to a stored object. -/
theorem refOp_of_checked {target : Hash} {name : String} {op : Repo.RefOp}
    (ran : (do if !(← contains target) then fail (.commitNotFound target) else refOp name op)
      store = .ok () last)
    : refOp name op store = .ok () last := by
  rw [contains, bind_assoc, get_bind_apply] at ran
  rw [pure_bind] at ran
  split at ran
  · cases ran
  · exact ran

/-- A commit of a data root follows work on trees. -/
theorem effect_of_commitWithRoot {call : StoreCall} {parents : List Hash} {rootHamt hash : Hash}
    {message : String} {middle : DiskStore} (settled : store.Settled)
    (roomy : Traced.Roomy last.cas.handed) (sets : call.sets = none)
    (drafts : call.drafts = some (parents, message, SortedMap.empty)) (calls : Calls store middle)
    (ran : commitWithRoot parents rootHamt message middle = .ok hash last)
    : Effect store call (some hash) last := by
  have serves := (commitWithRoot_serves parents rootHamt message).of_ok ran
  have sane := calls.objects.sane settled.sane (roomy.of_grows serves.objects.grows)
  obtain ⟨held, now, dated, -, rfl, records⟩ := commitWithRoot_eq_ok sane roomy ran
  exact .made sets drafts dated calls held records

variable {fuel : Nat} {reply : Option Hash}

theorem run_effect (settled : store.Settled) {call : StoreCall}
    (ran : call.run fuel store = .ok reply last) (roomy : Traced.Roomy last.cas.handed)
    : Effect store call reply last := by
  cases call with
  | applyHamtOps root ops =>
    obtain ⟨hash, called, rfl⟩ := map_eq_ok.mp ran
    exact .stored rfl rfl ((applyHamtOps_calls fuel root ops).of_ok called)
  | indexPut indexRoot key value =>
    obtain ⟨hash, called, rfl⟩ := map_eq_ok.mp ran
    exact .stored rfl rfl ((indexPut_calls fuel indexRoot key value).of_ok called)
  | indexRemove indexRoot key =>
    exact .stored rfl rfl ((indexRemove_calls fuel indexRoot key).of_ok ran)
  | getCommit hash =>
    obtain ⟨commit, called, rfl⟩ := map_eq_ok.mp ran
    exact .stored rfl rfl ((calls_of_looks (loadCommit_looks hash)).of_ok called)
  | commit parents root ops message =>
    obtain ⟨hash, called, rfl⟩ := map_eq_ok.mp ran
    obtain ⟨current, middle, applied, committed⟩ := bind_eq_ok.mp called
    exact effect_of_commitWithRoot settled roomy rfl rfl
      ((applyOps_calls fuel root ops).of_ok applied) committed
  | commitWithRoot parents rootHamt message =>
    obtain ⟨hash, called, rfl⟩ := map_eq_ok.mp ran
    exact effect_of_commitWithRoot settled roomy rfl rfl (calls_frame.refl store) called
  | commitWithIndexes parents rootHamt indexRoots message =>
    obtain ⟨hash, called, rfl⟩ := map_eq_ok.mp ran
    obtain ⟨held, now, dated, -, rfl, records⟩ := commitWithIndexes_eq_ok settled.sane roomy called
    exact .made rfl rfl dated (calls_frame.refl store) held records
  | createBranch name target =>
    obtain ⟨_, called, rfl⟩ := map_eq_ok.mp ran
    exact .moved rfl rfl (refOp_of_checked (createBranch_eq name target ▸ called))
  | updateBranch name target =>
    obtain ⟨_, called, rfl⟩ := map_eq_ok.mp ran
    exact .moved rfl rfl (refOp_of_checked (updateBranch_eq name target ▸ called))
  | deleteBranch name =>
    obtain ⟨_, called, rfl⟩ := map_eq_ok.mp ran
    exact .moved rfl rfl (deleteBranch_eq name ▸ called)
  | setHead name =>
    obtain ⟨_, called, rfl⟩ := map_eq_ok.mp ran
    exact .headed rfl rfl called
  | configureCaches objectCap commitCap mmapSegments =>
    obtain ⟨_, called, rfl⟩ := map_eq_ok.mp ran
    obtain ⟨next, configured, renews⟩ :=
      configureCaches_renews settled objectCap commitCap mmapSegments
    cases configured.symm.trans called
    exact .renewed rfl rfl renews
  | reopen =>
    obtain ⟨_, called, rfl⟩ := map_eq_ok.mp ran
    exact .renewed rfl rfl (reopen_renews settled called)

-- Settled sessions

/-- Objects are only added by a call. -/
theorem StoreCall.grows (call : StoreCall) (fuel : Nat)
    : Within (fun before after : DiskStore => before.cas.handed <+: after.cas.handed)
        (call.run fuel) := by
  have frame := history_frame
  have moved (name : String) (op : Repo.RefOp)
      : Within (fun before after : DiskStore => before.cas.handed <+: after.cas.handed)
          (refOp name op) :=
    fun store => ⟨[], (List.append_nil _).trans (refOp_handed name op store).symm⟩
  have checked (target : Hash) (name : String) (op : Repo.RefOp)
      : Within (fun before after : DiskStore => before.cas.handed <+: after.cas.handed)
          (do if !(← contains target) then fail (.commitNotFound target) else refOp name op) := by
    refine .bind frame (.bind frame (.get frame) fun _ => .pure frame _) fun held => ?_
    split
    · exact .throw frame _
    · exact moved name op
  cases call with
  | applyHamtOps root ops =>
    exact .map fun store => (applyHamtOps_calls fuel root ops store).objects.grows
  | indexPut indexRoot key value =>
    exact .map fun store => (indexPut_calls fuel indexRoot key value store).objects.grows
  | indexRemove indexRoot key =>
    exact fun store => (indexRemove_calls fuel indexRoot key store).objects.grows
  | getCommit hash => exact .map fun store => (loadCommit_looks hash store).calls.objects.grows
  | commit parents root ops message =>
    exact .map (.bind frame (fun store => (applyOps_calls fuel root ops store).objects.grows)
      fun _ store => (commitWithRoot_serves parents _ message store).objects.grows)
  | commitWithRoot parents rootHamt message =>
    exact .map fun store => (commitWithRoot_serves parents rootHamt message store).objects.grows
  | commitWithIndexes parents rootHamt indexRoots message =>
    exact .map fun store =>
      (commitWithIndexes_serves parents rootHamt indexRoots message store).objects.grows
  | createBranch name target => exact .map (createBranch_eq name target ▸ checked target name _)
  | updateBranch name target => exact .map (updateBranch_eq name target ▸ checked target name _)
  | deleteBranch name => exact .map (deleteBranch_eq name ▸ moved name _)
  | setHead name =>
    exact .map fun store => ⟨[], (List.append_nil _).trans (setHead_handed name store).symm⟩
  | configureCaches objectCap commitCap mmapSegments =>
    exact .map fun store => (List.prefix_rfl : store.cas.handed <+: store.cas.handed)
  | reopen => exact .map reopen_grows

theorem Session.grows {allowed : DiskStore → StoreCall → Prop} {calls : List StoreCall}
    (session : Session allowed store calls last)
    : store.cas.handed <+: last.cas.handed := by
  induction calls generalizing store with
  | nil => exact session ▸ List.prefix_rfl
  | cons call calls ih =>
    obtain ⟨-, fuel, reply, next, ran, rest⟩ := session
    exact ((StoreCall.grows call fuel).of_ok ran).trans (ih rest)

/-- A call on names below the directory of refs leaves a settled store settled. -/
theorem Effect.settled {call : StoreCall}
    (effect : Effect store call reply last) (settled : store.Settled)
    (roomy : Traced.Roomy last.cas.handed)
    (below : ∀ name op, call.sets = some (name, op) → Repo.Below name)
    : last.Settled := by
  cases effect with
  | stored _ _ calls => exact settled.serves calls.toServes roomy
  | made _ _ _ calls _ records =>
    exact settled.serves (serves_frame.trans calls.toServes records.toServes) roomy
  | @moved name op _ _ sets ran =>
    have turns := refOp_turns settled (below name op sets) op
    rw [ran, stateOf_ok] at turns
    exact turns.settled
  | @headed name _ _ _ ran =>
    have meets := (setHead_meets settled name).of_ok ran
    exact meets.1.settled
  | renewed _ _ renews => exact renews.settled

/-- It sets the tip of the name it changes. -/
theorem Effect.tip {call : StoreCall}
    (effect : Effect store call reply last) (settled : store.Settled)
    (below : ∀ name op, call.sets = some (name, op) → Repo.Below name) (parts : Path)
    : last.tip parts
      = match call.sets with
        | some (name, op) => if parts = Repo.refParts name then op.target else store.tip parts
        | none => store.tip parts := by
  cases effect with
  | stored _ sets calls =>
    rw [sets]
    exact calls.toServes.tip settled parts
  | made sets _ _ calls _ records =>
    rw [sets]
    exact (serves_frame.trans calls.toServes records.toServes).tip settled parts
  | @moved name op _ _ sets ran =>
    rw [sets]
    exact tip_of_refOp settled (below name op sets) op ran parts
  | @headed name _ _ sets ran =>
    obtain ⟨turns, -, -, alters, -⟩ := (setHead_meets settled name).of_ok ran
    rw [sets, DiskStore.tip, DiskStore.tip, Repo.tip, Repo.tip, turns.path,
      alters.fileAt settled.formed (by simp [Repo.heads, Repo.headPath])]
  | renewed _ sets renews =>
    rw [sets]
    exact renews.tips parts

/-- What holds before a session and is kept by its calls holds after it. What holds may speak of
the calls made so far.
-/
theorem Session.invariant {allowed : DiskStore → StoreCall → Prop}
    {holds : List StoreCall → DiskStore → Prop} {calls earlier : List StoreCall}
    (session : Session allowed store calls last) (roomy : Traced.Roomy last.cas.handed)
    (below : ∀ store call, allowed store call → ∀ name op, call.sets = some (name, op)
      → Repo.Below name)
    (step : ∀ earlier {store next : DiskStore} {call : StoreCall} {reply : Option Hash},
      holds earlier store → store.Settled → next.Settled → allowed store call
      → Effect store call reply next → Traced.Roomy next.cas.handed
      → next.cas.handed <+: last.cas.handed → holds (earlier ++ [call]) next)
    (settled : store.Settled) (start : holds earlier store)
    : last.Settled ∧ holds (earlier ++ calls) last := by
  induction calls generalizing store earlier with
  | nil =>
    cases session
    exact ⟨settled, by rwa [List.append_nil]⟩
  | cons call calls ih =>
    obtain ⟨meets, fuel, reply, next, ran, rest⟩ := session
    have fits := roomy.of_prefix rest.grows
    have effect := run_effect settled ran fits
    have kept := effect.settled settled fits (below store call meets)
    have later := ih rest kept (step earlier start settled kept meets effect fits rest.grows)
    rwa [List.append_assoc, List.singleton_append] at later

def Along (allowed : DiskStore → StoreCall → Prop) (fuel : Nat)
    : DiskStore → List StoreCall → Prop
  | _, [] => True
  | store, call :: calls =>
    allowed store call ∧ Along allowed fuel (Run.stateOf (call.run fuel store)) calls

/-- If they all return, they are a session. -/
theorem Along.session {allowed : DiskStore → StoreCall → Prop}
    {calls : List StoreCall} (along : Along allowed fuel store calls)
    (returned : (valueOf (calls.mapM (StoreCall.run fuel) store)).isSome = true)
    : Session allowed store calls (stateOf (calls.mapM (StoreCall.run fuel) store)) := by
  induction calls generalizing store with
  | nil => rfl
  | cons call calls ih =>
    cases ran : call.run fuel store with
    | error fault next =>
      rw [List.mapM_cons, bind_of_error ran] at returned
      cases returned
    | ok reply next =>
      have rest := along.2
      rw [ran, stateOf_ok] at rest
      rw [stateOf_mapM_cons ran]
      refine ⟨along.1, fuel, reply, next, ran, ih rest ?_⟩
      rw [List.mapM_cons, bind_of_ok ran, bind_apply] at returned
      cases later : calls.mapM (StoreCall.run fuel) next with
      | ok replies last => rfl
      | error fault last =>
        rw [later] at returned
        cases returned

end DiskStore
end Epochs
