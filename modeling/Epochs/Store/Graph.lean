import Epochs.Lib.Worklist
import Epochs.Store.Dag
import Epochs.Store.Settled

/-! The graph of stored commits, and what walks over it return: with enough budget, exactly the
commits that can be reached along parents.
-/

namespace Epochs

open Lib

namespace View

variable {view other : View} {hash parent child : Hash}

def parents (view : View) (hash : Hash) : List Hash :=
  ((view.commit hash).map Commit.parents).getD []

/-- A hash is the other, or a parent of a commit that is reached from the other. -/
def Reaches (view : View) : Hash → Hash → Prop := Worklist.Reaches view.parents

/-- Everything reached from a hash is a commit. -/
def Whole (view : View) (hash : Hash) : Prop :=
  ∀ reached, view.Reaches hash reached → ∃ commit, view.commit reached = some commit

theorem parents_of_commit {commit : Commit} (held : view.commit hash = some commit)
    : view.parents hash = commit.parents := by
  rw [parents, held]
  rfl

theorem Whole.commit (whole : view.Whole hash) : ∃ commit, view.commit hash = some commit :=
  whole hash .refl

theorem Whole.of_reaches (whole : view.Whole hash) (reaches : view.Reaches hash parent)
    : view.Whole parent :=
  fun reached further => whole reached (reaches.trans further)

theorem Whole.of_parent (whole : view.Whole hash) (edge : parent ∈ view.parents hash)
    : view.Whole parent :=
  whole.of_reaches (.single edge)

end View

namespace DiskStore

variable [Blake3] {store : DiskStore}

-- Loading

/-- What a store can be read by: its files hold its objects and its cache holds its commits. -/
structure Readable (store : DiskStore) : Prop where
  sane : store.cas.store.Sane
  coherent : store.Coherent

theorem Looks.readable {before after : DiskStore} (looks : Looks before after)
    (readable : before.Readable)
    : after.Readable :=
  ⟨looks.objects.sane readable.sane, looks.coherent readable.sane readable.coherent⟩

theorem Looks.view {before after : DiskStore} (looks : Looks before after)
    (readable : before.Readable)
    : after.view = before.view :=
  looks.objects.view readable.sane

/-- An object is read exactly when it is held. -/
theorem getObject_meets (sane : store.cas.store.Sane) (hash : Hash)
    : Run.Meets (fun record _ => store.view hash = some record)
        (fun reason _ => store.view hash = none ∧ ∃ error, reason = .err error)
        (getObject hash store) := by
  have meets := CasDisk.getPayload_meets sane.1.toConsistent sane.2 hash
  rw [getObject, onCas, Run.zoom, Traced.getRecord, Traced.onStore_apply]
  cases outcome : CasDisk.getPayload hash store.cas.store with
  | ok record last =>
    rw [show CasBackend.getRecord hash store.cas.store = _ from outcome]
    rw [outcome] at meets
    exact meets.1
  | error reason last =>
    rw [show CasBackend.getRecord hash store.cas.store = _ from outcome]
    rw [outcome] at meets
    exact ⟨meets.1, meets.2.2.2.1⟩

/-- A commit is loaded exactly when it is held. -/
theorem loadCommit_meets (readable : store.Readable) (hash : Hash)
    : Run.Meets (fun commit next => store.view.commit hash = some commit ∧ Looks store next)
        (fun reason next => store.view.commit hash = none ∧ (∃ error, reason = .err error)
          ∧ Looks store next)
        (loadCommit hash store) := by
  have looks := loadCommit_looks hash store
  have meets : Run.Meets (fun commit _ => store.view.commit hash = some commit)
      (fun reason _ => store.view.commit hash = none ∧ ∃ error, reason = .err error)
      (loadCommit hash store) := by
    rw [loadCommit, Run.get_bind_apply]
    cases cached : store.commitCache.get hash with
    | some commit => exact readable.coherent hash commit cached
    | none =>
      refine ((getObject_meets readable.sane hash).imp (fun _ _ held => held) ?_).bind ?_
      · rintro reason _ ⟨absent, error⟩
        exact ⟨by simp [View.commit, absent], error⟩
      · rintro ⟨recordType, payload⟩ middle _ held
        dsimp only
        split
        · rename_i notCommit
          refine ⟨?_, _, rfl⟩
          cases recordType with
          | commit => exact absurd rfl notCommit
          | hamtBitmap | hamtLeaf => simp [View.commit, held]
        · rename_i isCommit
          rw [not_not.mp isCommit] at held
          cases decoded : Commit.decodePayload payload with
          | error error =>
            exact ⟨by simp [View.commit, held, decoded, Except.toOption], error, rfl⟩
          | ok commit => exact View.commit_eq_some.mpr ⟨payload, held, decoded⟩
  cases ran : loadCommit hash store with
  | ok commit next =>
    rw [ran] at looks meets
    exact ⟨meets, looks⟩
  | error reason next =>
    rw [ran] at looks meets
    exact ⟨meets.1, meets.2, looks⟩

variable {hash : Hash} {next : DiskStore}

theorem loadCommit_eq_ok (readable : store.Readable) {commit : Commit}
    (ran : loadCommit hash store = .ok commit next)
    : store.view.commit hash = some commit := by
  have meets := (loadCommit_meets readable hash).of_ok ran
  exact meets.1

theorem loadCommit_of_held (readable : store.Readable) {commit : Commit}
    (held : store.view.commit hash = some commit)
    : ∃ next, loadCommit hash store = .ok commit next ∧ Looks store next := by
  have meets := loadCommit_meets readable hash
  cases ran : loadCommit hash store with
  | ok found next =>
    rw [ran] at meets
    cases meets.1.symm.trans held
    exact ⟨next, rfl, meets.2⟩
  | error reason next =>
    rw [ran] at meets
    cases meets.1.symm.trans held

-- Walks

/-- A walk from whole histories is a walk over the graph of commits. -/
theorem walkParents_eq (readable : store.Readable) (fuel : Nat) {queue visited : List Hash}
    (whole : ∀ hash ∈ queue, store.view.Whole hash)
    : ∃ next, Looks store next
        ∧ walkParents fuel queue visited store
          = match Worklist.walk store.view.parents fuel queue visited with
            | some found => .ok found next
            | none => .error .fuel next := by
  fun_induction walkParents fuel queue visited generalizing store with
  | case1 => exact ⟨store, looks_frame.refl store, by rw [Worklist.walk]; rfl⟩
  | case2 => exact ⟨store, looks_frame.refl store, rfl⟩
  | case3 fuel current queue visited seen ih =>
    rw [Worklist.walk, if_pos seen]
    exact ih readable fun hash member => whole hash (List.mem_cons_of_mem current member)
  | case4 fuel current queue visited unseen ih =>
    obtain ⟨commit, held⟩ := (whole current List.mem_cons_self).commit
    obtain ⟨middle, loaded, looks⟩ := loadCommit_of_held readable held
    have view := looks.view readable
    have edges : store.view.parents current = commit.parents := View.parents_of_commit held
    obtain ⟨next, further, ran⟩ := @ih commit middle (looks.readable readable) (by
      rw [view]
      intro hash member
      rcases List.mem_append.mp member with queued | parent
      · exact whole hash (List.mem_cons_of_mem current queued)
      · exact (whole current List.mem_cons_self).of_parent (edges ▸ parent))
    refine ⟨next, looks_frame.trans looks further, ?_⟩
    rw [Run.bind_of_ok loaded, ran, view, Worklist.walk, if_neg unseen, edges]

/-- A walk that returned has found commits, by a walk over the graph of commits. -/
theorem walkParents_eq_ok (readable : store.Readable) {fuel : Nat} {queue visited found : List Hash}
    (ran : walkParents fuel queue visited store = .ok found next)
    : Worklist.walk store.view.parents fuel queue visited = some found
      ∧ ∀ hash ∈ found, hash ∉ visited → ∃ commit, store.view.commit hash = some commit := by
  fun_induction walkParents fuel queue visited generalizing store with
  | case1 =>
    cases ran
    exact ⟨by rw [Worklist.walk], fun hash member unseen => absurd member unseen⟩
  | case2 => cases ran
  | case3 fuel current queue visited seen ih =>
    rw [Worklist.walk, if_pos seen]
    exact ih readable ran
  | case4 fuel current queue visited unseen ih =>
    obtain ⟨commit, middle, loaded, further⟩ := Run.bind_eq_ok.mp ran
    have held := loadCommit_eq_ok readable loaded
    have looks := (loadCommit_looks current).of_ok loaded
    obtain ⟨walked, commits⟩ := ih commit (looks.readable readable) further
    rw [looks.view readable] at walked commits
    rw [Worklist.walk, if_neg unseen, View.parents_of_commit held]
    refine ⟨walked, fun hash member fresh => ?_⟩
    by_cases here : hash = current
    · exact ⟨commit, here ▸ held⟩
    · exact commits hash member (by simp [fresh, here])

/-- Ancestors that were collected are what the start reaches, all of them commits. -/
theorem collectAncestors_eq_ok (readable : store.Readable) {fuel : Nat} {start : Hash}
    {found : List Hash}
    (ran : collectAncestors fuel start store = .ok found next)
    : store.view.Whole start ∧ ∀ hash, hash ∈ found ↔ store.view.Reaches start hash := by
  obtain ⟨walked, commits⟩ := walkParents_eq_ok readable ran
  have members (hash : Hash) : hash ∈ found ↔ store.view.Reaches start hash := by
    rw [Worklist.mem_walk walked (by simp)]
    simp [View.Reaches]
  exact ⟨fun hash reaches => commits hash ((members hash).mpr reaches) (by simp), members⟩

omit [Blake3] in
theorem mem_addChild {child other : Hash} {map : AssocMap Hash (List Hash)}
    {parents : List Hash}
    : other ∈ (AssocMap.lookup hash (addChild child map parents)).getD []
      ↔ other ∈ (AssocMap.lookup hash map).getD [] ∨ other = child ∧ hash ∈ parents := by
  unfold addChild
  induction parents generalizing map with
  | nil => simp
  | cons parent rest ih =>
    rw [List.foldl_cons, ih, AssocMap.lookup_insert, List.mem_cons]
    by_cases here : parent = hash
    · subst here
      simp only [if_true, Option.getD_some, List.mem_append, List.mem_singleton, true_or, and_true]
      tauto
    · simp only [here, if_false, Ne.symm here, false_or]

/-- A commit is recorded as a child of each of its parents. -/
theorem childrenOf_eq_ok (readable : store.Readable) {commits : List Hash}
    {map children : AssocMap Hash (List Hash)}
    (ran : childrenOf commits map store = .ok children next) {child : Hash}
    : child ∈ (AssocMap.lookup hash children).getD []
      ↔ child ∈ (AssocMap.lookup hash map).getD []
        ∨ child ∈ commits ∧ hash ∈ store.view.parents child := by
  induction commits generalizing store map with
  | nil =>
    cases ran
    simp
  | cons current rest ih =>
    obtain ⟨commit, middle, loaded, onward⟩ := Run.bind_eq_ok.mp ran
    have edges := View.parents_of_commit (loadCommit_eq_ok readable loaded)
    have looks := (loadCommit_looks current).of_ok loaded
    rw [ih (looks.readable readable) onward, mem_addChild, looks.view readable, ← edges,
      List.mem_cons]
    by_cases here : child = current
    · subst here
      tauto
    · tauto

def known (store : DiskStore) : Finset Hash := store.cas.store.cas.index.hashes.toFinset

theorem mem_known {record : RecordType × Bytes}
    (held : store.view hash = some record)
    : hash ∈ store.known := by
  rw [known, List.mem_toFinset]
  unfold DiskStore.view CasDisk.view at held
  cases found : store.cas.store.cas.index.find hash with
  | none => simp [found] at held
  | some entry => exact AssocMap.lookup_isSome.mp (by
    rw [show AssocMap.lookup hash _ = _ from found]
    rfl)

theorem mem_known_of_commit {commit : Commit}
    (held : store.view.commit hash = some commit)
    : hash ∈ store.known := by
  obtain ⟨payload, here, -⟩ := View.commit_eq_some.mp held
  exact mem_known here

/-- A kind of commits that steps do not leave is a set of known ones. -/
theorem exists_known_closed {kind : Hash → Prop} {steps : Hash → List Hash} {start : Hash}
    (stored : ∀ hash, kind hash → ∃ commit, store.view.commit hash = some commit)
    (closed : ∀ hash, kind hash → ∀ other ∈ steps hash, kind other) (here : kind start)
    : ∃ universe_ ⊆ store.known, start ∈ universe_
        ∧ ∀ hash ∈ universe_, ∀ other ∈ steps hash, other ∈ universe_ := by
  classical
  have member {hash : Hash} (inside : kind hash) : hash ∈ store.known.filter kind := by
    obtain ⟨commit, held⟩ := stored hash inside
    exact Finset.mem_filter.mpr ⟨mem_known_of_commit held, inside⟩
  exact ⟨store.known.filter kind, Finset.filter_subset _ _, member here,
    fun hash inside other step => member (closed hash (Finset.mem_filter.mp inside).2 other step)⟩

theorem exists_known_ancestors {start : Hash} (whole : store.view.Whole start)
    : ∃ universe_ ⊆ store.known, start ∈ universe_
        ∧ ∀ hash ∈ universe_, ∀ parent ∈ store.view.parents hash, parent ∈ universe_ :=
  exists_known_closed (fun _ => View.Whole.commit) (fun _ whole _ => whole.of_parent) whole

end DiskStore
end Epochs
