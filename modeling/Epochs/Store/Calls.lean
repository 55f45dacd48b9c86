import Epochs.Hamt.Frames
import Epochs.Store.Dag
import Epochs.Store.Objects
import Epochs.Store.Refs

/-! What the operations of a store keep that do not write refs: the repository and every file
outside the store of objects. Reads keep the objects as well, and the commits in the cache stay
the stored ones.
-/

namespace Epochs

open Lib Run

namespace View

variable {view other : View} {hash : Hash} {found : Commit}

def commit (view : View) (hash : Hash) : Option Commit :=
  match view hash with
  | some (.commit, payload) => (Commit.decodePayload payload).toOption
  | _ => none

theorem commit_eq_some
    : view.commit hash = some found
      ↔ ∃ payload, view hash = some (.commit, payload)
        ∧ Commit.decodePayload payload = .ok found := by
  unfold View.commit
  split
  · rename_i payload held
    rw [held]
    cases decoded : Commit.decodePayload payload with
    | ok value => simp [Except.toOption, decoded]
    | error error => simp [Except.toOption, decoded]
  · rename_i other
    simp only [reduceCtorEq, false_iff, not_exists, not_and]
    intro payload held
    exact absurd held (other payload)

theorem Extends.commit (more : view.Extends other) (held : view.commit hash = some found)
    : other.commit hash = some found := by
  obtain ⟨payload, here, decoded⟩ := commit_eq_some.mp held
  exact commit_eq_some.mpr ⟨payload, more _ _ here, decoded⟩

/-- Storing an object that is not a commit leaves the commits. -/
theorem commit_add_node (view : View) (hash : Hash) (node : HamtNode)
    : (view.add hash (node.recordType, node.encode)).commit = view.commit := by
  funext other
  unfold View.commit
  by_cases same : other = hash
  · subst same
    cases held : view other with
    | some record => rw [View.add_of_held held, held]
    | none => cases node <;> simp [View.add, held, HamtNode.recordType]
  · simp [View.add, same]

end View

namespace Traced

variable [Blake3]

/-- A step that may store objects but no commits. -/
structure Plants (before after : Traced CasDisk) : Prop extends Serves before after where
  commits : before.store.Sane → Roomy after.handed
    → after.store.view.commit = before.store.view.commit

theorem plants_frame : Frame Plants where
  refl _ := ⟨serves_frame.refl _, fun _ _ => rfl⟩
  trans first second :=
    { toServes := serves_frame.trans first.toServes second.toServes
      commits := fun sane roomy =>
        have earlier := roomy.of_grows second.grows
        (second.commits (first.sane sane earlier) roomy).trans (first.commits sane earlier) }

theorem getRecord_plants (hash : Hash)
    : Within Plants (getRecord hash : Run EpochsError (Traced CasDisk) _) := by
  intro traced
  have looks := getRecord_looks hash traced
  exact ⟨looks.serves, fun sane _ => congrArg View.commit (looks.objects.view sane)⟩

theorem put_plants (node : HamtNode)
    : Within Plants
        (put node.recordType node.encode : Run EpochsError (Traced CasDisk) Hash) := by
  intro traced
  refine ⟨put_serves _ _ traced, fun sane roomy => ?_⟩
  have fits : node.encode.length + 45 < 2 ^ 32 := by
    rw [put_handed] at roomy
    exact roomy (node.recordType, node.encode) (by simp)
  rw [put_apply, stateOf_onStore]
  rcases (CasDisk.put_sane sane node.recordType fits).2.2 with same | added
  · exact congrArg View.commit same
  · exact (congrArg View.commit added).trans (View.commit_add_node _ _ _)

end Traced

namespace DiskStore

variable [Blake3] {store before after : DiskStore}

def view (store : DiskStore) : View := store.cas.store.view

def Coherent (store : DiskStore) : Prop :=
  ∀ hash commit, store.commitCache.get hash = some commit → store.view.commit hash = some commit

/-- A step that leaves the repository, its objects and the files outside the store of objects. -/
structure Looks (before after : DiskStore) : Prop where
  repo : after.repo = before.repo
  handed : after.cas.handed = before.cas.handed
  objects : before.cas.store.Looks after.cas.store
  coherent : before.cas.store.Sane → before.Coherent → after.Coherent

/-- A step that may also store objects. -/
structure Serves (before after : DiskStore) : Prop where
  repo : after.repo = before.repo
  objects : before.cas.Serves after.cas

/-- A step that stores objects but no commits. -/
structure Calls (before after : DiskStore) : Prop extends Serves before after where
  coherent : before.cas.store.Sane → Traced.Roomy after.cas.handed
    → before.Coherent → after.Coherent
  commits : before.cas.store.Sane → Traced.Roomy after.cas.handed
    → after.view.commit = before.view.commit

theorem looks_frame : Frame Looks where
  refl _ := ⟨rfl, rfl, CasDisk.looks_frame.refl _, fun _ coherent => coherent⟩
  trans first second :=
    { repo := second.repo.trans first.repo
      handed := second.handed.trans first.handed
      objects := CasDisk.looks_frame.trans first.objects second.objects
      coherent := fun sane coherent =>
        second.coherent (first.objects.sane sane) (first.coherent sane coherent) }

theorem serves_frame : Frame Serves where
  refl _ := ⟨rfl, Traced.serves_frame.refl _⟩
  trans first second :=
    ⟨second.repo.trans first.repo, Traced.serves_frame.trans first.objects second.objects⟩

theorem calls_frame : Frame Calls where
  refl _ := ⟨serves_frame.refl _, fun _ _ coherent => coherent, fun _ _ => rfl⟩
  trans first second :=
    { toServes := serves_frame.trans first.toServes second.toServes
      coherent := fun sane roomy coherent =>
        have earlier := roomy.of_grows second.objects.grows
        second.coherent (first.objects.sane sane earlier) roomy
          (first.coherent sane earlier coherent)
      commits := fun sane roomy =>
        have earlier := roomy.of_grows second.objects.grows
        (second.commits (first.objects.sane sane earlier) roomy).trans
          (first.commits sane earlier) }

/-- A step that leaves the objects stores no commit. -/
theorem Looks.calls (looks : Looks before after) : Calls before after where
  repo := looks.repo
  objects := Traced.Looks.serves ⟨looks.handed, looks.objects⟩
  coherent sane _ coherent := looks.coherent sane coherent
  commits sane _ := congrArg View.commit (looks.objects.view sane)

theorem calls_of_looks {ε α : Type} {run : Run ε DiskStore α} (looks : Within Looks run)
    : Within Calls run :=
  fun store => (looks store).calls

-- Parts of the store

/-- The cache stays right while no commit is lost. -/
theorem Coherent.of_extends (coherent : before.Coherent)
    (cache : after.commitCache = before.commitCache) (more : before.view.Extends after.view)
    : after.Coherent := by
  intro hash commit found
  rw [cache] at found
  exact more.commit (coherent hash commit found)

theorem onCas_looks {α : Type} {run : Run EpochsError (Traced CasDisk) α}
    (looks : Within Traced.Looks run)
    : Within Looks (onCas run) :=
  .zoom looks fun store cas looks => ⟨rfl, looks.handed, looks.objects, fun sane coherent =>
    coherent.of_extends rfl (show store.cas.store.view.Extends cas.store.view from
      looks.objects.view sane ▸ View.Extends.refl _)⟩

theorem onCas_serves {α : Type} {run : Run EpochsError (Traced CasDisk) α}
    (serves : Within Traced.Serves run)
    : Within Serves (onCas run) :=
  .zoom serves fun _ _ serves => ⟨rfl, serves⟩

theorem onCas_calls {α : Type} {run : Run EpochsError (Traced CasDisk) α}
    (plants : Within Traced.Plants run)
    : Within Calls (onCas run) :=
  .zoom plants fun _ _ plants => ⟨⟨rfl, plants.toServes⟩, fun sane roomy coherent =>
    coherent.of_extends rfl (plants.extends_ sane roomy), plants.commits⟩

theorem onWorld_looks {α : Type} {run : Run EpochsError World α}
    (quiet : Within (fun before after => after.fs = before.fs ∧ before.Lives after) run)
    : Within Looks (onWorld run) := by
  refine .zoom quiet ?_
  rintro store world ⟨same, lives⟩
  have looks : store.cas.store.Looks { store.cas.store with world } :=
    CasDisk.looks_of_same_files same lives
  exact ⟨rfl, rfl, looks, fun sane coherent => coherent.of_extends rfl
    (show store.cas.store.view.Extends _ from looks.view sane ▸ View.Extends.refl _)⟩

-- Refs are read without a trace

omit [Blake3] in
/-- A branch is read from the files, and nothing is changed. -/
theorem getBranch_apply (name : String) (store : DiskStore)
    : getBranch name store
      = ofExcept (store.repo.branchAt store.world.fs name) store := by
  rw [getBranch, get_bind_apply]
  rw [onWorld, zoom, Repo.readBranch_apply]
  cases store.repo.branchAt store.world.fs name <;> rfl

omit [Blake3] in
theorem listBranches_apply (store : DiskStore)
    : listBranches store = ofExcept (store.repo.branchesAt store.world.fs) store := by
  rw [listBranches, get_bind_apply]
  rw [onWorld, zoom, Repo.listBranches_apply]
  cases store.repo.branchesAt store.world.fs <;> rfl

section Frames

variable {relation : DiskStore → DiskStore → Prop} (frame : Frame relation)
include frame

omit [Blake3] in
theorem getBranch_within (name : String) : Within relation (getBranch name) := by
  intro store
  rw [getBranch_apply, stateOf_ofExcept]
  exact frame.refl store

omit [Blake3] in
theorem listBranches_within : Within relation listBranches := by
  intro store
  rw [listBranches_apply, stateOf_ofExcept]
  exact frame.refl store

omit [Blake3] in
theorem head_within : Within relation head := by
  refine .get_bind fun store => ?_
  cases store.repo.head with
  | none => exact frame.refl store
  | some name =>
    exact Within.bind frame (getBranch_within frame name) (fun _ => .pure frame _) store

omit [Blake3] in
theorem contains_within (hash : Hash) : Within relation (contains hash) :=
  .bind frame (.get frame) fun _ => .pure frame _

omit [Blake3] in
theorem resolveHashRef_within (hex : String) : Within relation (resolveHashRef hex) := by
  unfold resolveHashRef
  split
  · refine .bind frame (.ofExcept frame _) fun hash =>
      .bind frame (contains_within frame hash) fun found => ?_
    split
    · exact .pure frame _
    · exact .throw frame _
  · refine .bind frame (.get frame) fun store => ?_
    split
    · exact .throw frame _
    · exact .pure frame _
    · exact .throw frame _

omit [Blake3] in
theorem checkParents_within (parents : List Hash) : Within relation (checkParents parents) := by
  induction parents with
  | nil => exact .pure frame _
  | cons parent rest ih =>
    refine .bind frame (contains_within frame parent) fun found => ?_
    split
    · exact .throw frame _
    · exact ih

-- Walks

variable (loads : ∀ hash, Run.Within relation (loadCommit hash))
include loads

/-- A walk over parents only loads commits. -/
theorem walkParents_within (fuel : Nat) (queue visited : List Hash)
    : Within relation (walkParents fuel queue visited) := by
  fun_induction walkParents fuel queue visited with
  | case1 => exact .pure frame _
  | case2 => exact .throw frame _
  | case3 fuel current queue visited seen ih => exact ih
  | case4 fuel current queue visited unseen ih => exact .bind frame (loads current) ih

theorem walkBranches_within (fuel : Nat) (names : List String) (visited : List Hash)
    : Within relation (walkBranches fuel names visited) := by
  induction names generalizing visited with
  | nil => exact .pure frame _
  | cons name rest ih =>
    exact .bind frame (getBranch_within frame name) fun branch =>
      .bind frame (walkParents_within frame loads fuel _ _) fun visited => ih visited

theorem reachableCommits_within (fuel : Nat)
    : Within relation (reachableCommits fuel) :=
  .bind frame (listBranches_within frame) fun names =>
    walkBranches_within frame loads fuel names []

theorem childrenOf_within (commits : List Hash) (map : AssocMap Hash (List Hash))
    : Within relation (childrenOf commits map) := by
  induction commits generalizing map with
  | nil => exact .pure frame _
  | cons hash rest ih => exact .bind frame (loads hash) fun commit => ih _

theorem childrenMap_within [HashSeed] (fuel : Nat)
    : Within relation (childrenMap fuel) :=
  .bind frame (reachableCommits_within frame loads fuel) fun _ =>
    childrenOf_within frame loads _ _

theorem collectAncestors_within (fuel : Nat) (start : Hash)
    : Within relation (collectAncestors fuel start) :=
  walkParents_within frame loads fuel _ _

theorem searchParents_within (targets : List Hash) (fuel : Nat) (queue visited : List Hash)
    : Within relation (searchParents targets fuel queue visited) := by
  fun_induction searchParents targets fuel queue visited with
  | case1 => exact .pure frame _
  | case2 => exact .throw frame _
  | case3 => exact .pure frame _
  | case4 fuel current queue visited other ih => exact .bind frame (loads current) fun commit => ih _ _

theorem mergeBase_within (fuel : Nat) (first second : Hash)
    : Within relation (mergeBase fuel first second) := by
  unfold mergeBase
  split
  · exact .pure frame _
  · exact .bind frame (collectAncestors_within frame loads fuel first) fun ancestors =>
      searchParents_within frame loads _ _ _ _

theorem isAncestor_within (fuel : Nat) (ancestor descendant : Hash)
    : Within relation (isAncestor fuel ancestor descendant) := by
  unfold isAncestor
  split
  · exact .pure frame _
  · exact .bind frame (collectAncestors_within frame loads fuel descendant) fun _ =>
      .pure frame _

end Frames

-- Reads

theorem getObject_looks (hash : Hash) : Within Looks (getObject hash) :=
  onCas_looks (Traced.getRecord_looks hash)

/-- An object that is read is held. -/
theorem getObject_eq_ok {hash : Hash} {record : RecordType × Bytes} {next : DiskStore}
    (sane : store.cas.store.Sane) (read : getObject hash store = .ok record next)
    : store.view hash = some record := by
  have meets := CasDisk.getPayload_meets sane.1.toConsistent sane.2 hash
  rw [getObject, onCas, zoom, Traced.getRecord, Traced.onStore_apply] at read
  cases outcome : CasDisk.getPayload hash store.cas.store with
  | error reason last =>
    rw [show CasBackend.getRecord hash store.cas.store = _ from outcome] at read
    cases read
  | ok found last =>
    rw [show CasBackend.getRecord hash store.cas.store = _ from outcome] at read
    rw [outcome] at meets
    cases read
    exact meets.1

/-- Loading a commit changes the caches only. -/
theorem loadCommit_looks (hash : Hash) : Within Looks (loadCommit hash) := by
  refine .get_bind fun store => ?_
  cases cached : store.commitCache.get hash with
  | some commit => exact looks_frame.refl store
  | none =>
    have looks := getObject_looks hash store
    dsimp only
    rw [bind_apply]
    cases read : getObject hash store with
    | error fault next =>
      rw [read] at looks
      exact looks
    | ok record next =>
      rw [read] at looks
      obtain ⟨recordType, payload⟩ := record
      dsimp only [stateOf_ok] at looks ⊢
      split
      · exact looks
      · rename_i isCommit
        cases decoded : Commit.decodePayload payload with
        | error error => exact looks
        | ok commit =>
          refine ⟨looks.repo, looks.handed, looks.objects, fun sane coherent => ?_⟩
          intro other found here
          rcases LruMap.get_insert here with ⟨rfl, rfl⟩ | old
          · have held := getObject_eq_ok sane read
            rw [not_not.mp isCommit] at held
            have kept : next.view = store.view := looks.objects.view sane
            change next.view.commit other = some found
            rw [kept]
            exact View.commit_eq_some.mpr ⟨payload, held, decoded⟩
          · exact looks.coherent sane coherent other found old

theorem hamtEntries_looks (fuel : Nat) (root : Hash)
    : Within Looks (hamtEntries fuel root) := by
  unfold hamtEntries
  split
  · exact .pure looks_frame _
  · exact onCas_looks (PersistentHamt.collectEntries_kept (.within Traced.looks_frame)
      Traced.getRecord_looks fuel root [])

theorem flushCas_looks : Within Looks flushCas :=
  onCas_looks (Traced.onStore_looks CasDisk.flush_looks)

/-- Counting commits changes nothing else. -/
theorem looks_of_counted (store : DiskStore) (count : Nat)
    : Looks store { store with commitsSinceFsync := count } :=
  ⟨rfl, rfl, CasDisk.looks_frame.refl _, fun _ coherent => coherent⟩

theorem flush_looks : Within Looks flush :=
  .bind looks_frame flushCas_looks fun _ store => looks_of_counted store 0

theorem flushIfDue_looks : Within Looks flushIfDue := by
  refine .get_bind fun store => Within.get_bind (fun other => ?_) store
  split
  · exact flush_looks other
  · exact looks_frame.refl other

theorem nowMillis_looks : Within Looks (onWorld World.nowMillis) :=
  onWorld_looks fun _ => ⟨rfl, id⟩

theorem nextTimestamp_looks : Within Looks (onWorld nextTimestamp) := by
  refine onWorld_looks fun world => ?_
  rw [nextTimestamp, get_bind_apply]
  rw [bind_apply, modify_apply]
  dsimp only
  split
  · exact ⟨rfl, id⟩
  · exact ⟨rfl, id⟩

-- Writes of tree nodes

theorem insert_calls (fuel : Nat) (root : Option Hash) (key value : Bytes)
    : Within Calls (onCas (PersistentHamt.insert fuel root key value)) :=
  onCas_calls (PersistentHamt.insert_within Traced.plants_frame Traced.getRecord_plants
    Traced.put_plants fuel root key value)

/-- Changing a tree stores nodes, and no commit. -/
theorem applyOps_calls (fuel : Nat) (root : Option Hash) (ops : List HamtOp)
    : Within Calls (applyOps fuel root ops) := by
  induction ops generalizing root with
  | nil => exact .pure calls_frame _
  | cons op rest ih =>
    obtain ⟨key, value⟩ := op
    exact .bind calls_frame (insert_calls fuel _ key value) fun next => ih (some next)

theorem applyHamtOps_calls (fuel : Nat) (root : Option Hash) (ops : List HamtOp)
    : Within Calls (applyHamtOps fuel root ops) :=
  .bind calls_frame (applyOps_calls fuel root ops) fun _ => .pure calls_frame _

theorem indexPut_calls (fuel : Nat) (indexRoot : Option Hash) (key value : Bytes)
    : Within Calls (indexPut fuel indexRoot key value) :=
  insert_calls fuel indexRoot key value

theorem indexRemove_calls (fuel : Nat) (indexRoot : Option Hash) (key : Bytes)
    : Within Calls (indexRemove fuel indexRoot key) :=
  onCas_calls (PersistentHamt.remove_within Traced.plants_frame Traced.getRecord_plants
    Traced.put_plants fuel indexRoot key)

-- Commits

theorem putCommit_serves (payload : Bytes)
    : Within Serves (onCas (Traced.put .commit payload)) :=
  onCas_serves (Traced.put_serves .commit payload)

/-- Caching a commit changes nothing that is stored. -/
theorem serves_of_cached (store : DiskStore) (cache : LruMap Hash Commit) (count : Nat)
    : Serves store { store with commitCache := cache, commitsSinceFsync := count } :=
  ⟨rfl, Traced.serves_frame.refl _⟩

/-- Storing a commit changes no ref. -/
theorem persistCommit_serves (commit : Commit) : Within Serves (persistCommit commit) :=
  .bind serves_frame (putCommit_serves _) fun _ =>
    .bind serves_frame (fun store => serves_of_cached store _ _) fun _ =>
      .bind serves_frame (fun store => (flushIfDue_looks store).calls.toServes) fun _ =>
        .pure serves_frame _

theorem commitWithIndexes_serves (parents : List Hash) (rootHamt : Hash)
    (indexRoots : SortedMap String Hash) (message : String)
    : Within Serves (commitWithIndexes parents rootHamt indexRoots message) :=
  .bind serves_frame (checkParents_within serves_frame parents) fun _ =>
    .bind serves_frame (fun store => (nowMillis_looks store).calls.toServes) fun _ =>
      persistCommit_serves _

theorem commitWithRoot_serves (parents : List Hash) (rootHamt : Hash) (message : String)
    : Within Serves (commitWithRoot parents rootHamt message) :=
  .bind serves_frame (checkParents_within serves_frame parents) fun _ =>
    .bind serves_frame (fun store => (nextTimestamp_looks store).calls.toServes) fun _ =>
      persistCommit_serves _

end DiskStore
end Epochs
