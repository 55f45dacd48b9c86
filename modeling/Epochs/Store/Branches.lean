import Epochs.Store.Sessions

/-! Which branches are listed after a session: with names of one part, those created and not since
deleted. The walk over the graph starts at the listed branches alone.
-/

namespace Epochs

open Lib

namespace StoreCall

def keep (names : List String) : StoreCall → List String
  | createBranch name _ => name :: names
  | deleteBranch name => names.filter (· ≠ name)
  | _ => names

/-- The branches a call names have one part. -/
def Flat (call : StoreCall) : Prop :=
  ∀ name op, call.sets = some (name, op) → Repo.Single name

/-- The parents of a commit that a call makes, and the target it moves a branch to, are commits,
and the fields of the commit fit.
-/
structure Sound [Blake3] (store : DiskStore) (call : StoreCall) : Prop where
  flat : call.Flat
  fits : call.Fits
  parents : ∀ parents message indexRoots, call.drafts = some (parents, message, indexRoots)
    → ∀ parent ∈ parents, ∃ commit, store.view.commit parent = some commit
  target : ∀ name op, call.sets = some (name, op) → ∀ target, op.target = some target
    → ∃ commit, store.view.commit target = some commit

end StoreCall

namespace DiskStore

def branchesAfter (branch : String) (calls : List StoreCall) : List String :=
  calls.foldl StoreCall.keep [branch]

variable [Blake3] {store last : DiskStore}

/-- A branch that was moved was there. -/
theorem tip_of_updated (settled : store.Settled) {name : String} (single : Repo.Single name)
    {target : Hash} (ran : refOp name (.update target) store = .ok () last)
    : ∃ old, store.tip [name] = some old := by
  rw [refOp_apply] at ran
  have meets := (Repo.RefOp.update target).run_meets settled.stands single.below
  cases changed : (Repo.RefOp.update target).run store.repo name store.world with
  | error fault world =>
    rw [changed] at ran
    cases ran
  | ok value world =>
    rw [changed] at meets
    obtain ⟨alters, -, -, written⟩ := meets
    rw [Repo.RefOp.run, Repo.updateBranch, Run.bind_of_ok (Repo.refExists_apply _ _ _)] at changed
    have place := settled.stands.place_of_below single.below
    have path : store.repo.refPath name = Repo.heads store.repo.path ++ [name] := by
      rw [Repo.refPath, single.refParts]
    cases found : store.world.fs.node (store.repo.refPath name) with
    | none =>
      rw [Repo.present_of_none (place ▸ found)] at changed
      cases changed
    | some node =>
      cases node with
      | dir =>
        have still := alters.dirs found
        simp [FileSystem.fileAt, FileSystem.inodeAt, still, Repo.RefOp.left] at written
      | file inode =>
        have file : store.world.fs.fileAt (Repo.heads store.repo.path ++ [name])
            = some (store.world.fs.content inode) := by
          rw [← path, FileSystem.fileAt, FileSystem.inodeAt_eq_some.mpr found]
          rfl
        obtain ⟨-, -, old, read⟩ := settled.tidy _ _ file
        exact ⟨old, by rw [tip, Repo.tip, file, Option.bind_some, read]⟩

/-- The branches of one part are those in a list. -/
def Lists (store : DiskStore) (names : List String) : Prop :=
  ∀ name, (∃ target, store.tip [name] = some target) ↔ name ∈ names

/-- A call keeps the list of branches as the names it creates and deletes say. -/
theorem Lists.step {names : List String} (lists : store.Lists names) (settled : store.Settled)
    {call : StoreCall} {reply : Option Hash} (flat : call.Flat)
    (effect : Effect store call reply last)
    : last.Lists (call.keep names) := by
  intro name
  have below : ∀ name op, call.sets = some (name, op) → Repo.Below name :=
    fun name op sets => (flat name op sets).below
  rw [effect.tip settled below]
  cases sets : call.sets with
  | none =>
    have kept : call.keep names = names := by
      cases call <;> first | rfl | cases sets
    rw [kept]
    exact lists name
  | some change =>
    obtain ⟨other, op⟩ := change
    have single := flat other op sets
    dsimp only
    rw [single.refParts]
    cases call with
    | createBranch other target =>
      cases sets
      by_cases same : name = other
      · simp [same, StoreCall.keep, Repo.RefOp.target]
      · simpa [same, StoreCall.keep] using lists name
    | deleteBranch other =>
      cases sets
      by_cases same : name = other
      · simp [same, StoreCall.keep, Repo.RefOp.target]
      · simpa [same, StoreCall.keep] using lists name
    | updateBranch other target =>
      cases sets
      by_cases same : name = other
      · cases effect with
        | moved _ changes ran =>
          cases changes
          simp only [same, if_true, Repo.RefOp.target, StoreCall.keep, Option.some.injEq,
            exists_eq', true_iff]
          exact (lists other).mp (tip_of_updated settled single ran)
        | stored _ sets _ => cases sets
        | made sets => cases sets
        | headed _ sets _ => cases sets
        | renewed _ sets _ => cases sets
      · simpa [same, StoreCall.keep] using lists name
    | _ => cases sets

/-- A sound call keeps a store in order. -/
theorem Orderly.step (orderly : store.Orderly) {call : StoreCall} {reply : Option Hash}
    (sound : StoreCall.Sound store call) (effect : Effect store call reply last)
    (roomy : Traced.Roomy last.cas.handed) (unmixed : Traced.Unmixed last.cas.handed)
    : last.Orderly := by
  cases effect with
  | stored _ _ calls => exact orderly.calls calls roomy
  | @made commit middle _ _ drafts dated calls _ records =>
    have earlier := roomy.of_grows records.objects.grows
    refine (orderly.calls calls earlier).records records
      ((StoreCall.fits_iff drafts dated).mp sound.fits) ?_ roomy unmixed
    rw [calls.commits orderly.settled.sane earlier]
    exact sound.parents _ _ _ drafts
  | @moved name op _ _ sets ran =>
    have after := orderly.refOp (sound.flat name op sets).below op (sound.target name op sets)
    rwa [ran] at after
  | @headed name _ _ _ ran =>
    have after := orderly.setHead name
    rwa [ran] at after
  | renewed _ _ renews =>
    refine ⟨renews.settled, renews.coherent, renews.view ▸ orderly.closed, ?_⟩
    intro parts target held
    rw [renews.tips] at held
    rw [renews.view]
    exact orderly.tips parts target held

/-- The branches listed after a session on names of one part are those created and not since
deleted, each once. If refs and parents are commits throughout, what can be reached from any of
these branches is found.
-/
theorem branches_listed {path : Path} {branch message : String} {genesis : Hash}
    {world opened : World} (plain : ∀ part ∈ path, part ≠ "" ∧ part ≠ "." ∧ part ≠ "..")
    (formed : world.fs.WellFormed) (alive : world.deadline = none)
    (unused : Repo.Unused world.fs path) (single : Repo.Single branch)
    (initialised : init path branch message world = .ok (store, genesis) opened)
    {calls : List StoreCall} (session : Session (fun _ call => call.Flat) store calls last)
    (roomy : Traced.Roomy last.cas.handed)
    : (∃ names, listBranches last = .ok names last ∧ names.Nodup
        ∧ ∀ name, name ∈ names ↔ name ∈ branchesAfter branch calls)
      ∧ ((Utf8.encode message).length < 65536 → Traced.Unmixed last.cas.handed
        → Session StoreCall.Sound store calls last → ∀ fuel, last.budget ≤ fuel
        → ∃ found next, reachableCommits fuel last = .ok found next
          ∧ ∀ name ∈ branchesAfter branch calls, ∃ target,
            getBranch name last = .ok { name, target } last
            ∧ ∀ hash, last.view.Reaches target hash → hash ∈ found) := by
  have fresh := init_fresh plain formed alive unused single.below
    (roomy.of_prefix session.grows) initialised
  have first : store.Lists [branch] := by
    intro name
    rw [fresh.tips, single.refParts]
    by_cases same : name = branch <;> simp [same]
  obtain ⟨settled, lists⟩ := @Session.invariant _ store last (fun _ call => call.Flat)
    (fun earlier store => store.Lists (branchesAfter branch earlier)) calls [] session roomy
    (fun _ _ flat name op sets => (flat name op sets).below)
    (fun earlier store next call reply lists settled _ flat effect _ _ => by
      rw [branchesAfter, List.foldl_append]
      exact lists.step settled flat effect)
    fresh.settled first
  refine ⟨?_, fun short unmixed sound fuel enough => ?_⟩
  · obtain ⟨names, listed, distinct, members⟩ := settled.listBranches
    exact ⟨names, listed, distinct, fun name => (members name).trans (lists name)⟩
  · obtain ⟨-, orderly⟩ := @Session.invariant _ store last StoreCall.Sound
      (fun _ store => store.Orderly) calls [] sound roomy
      (fun _ _ sound name op sets => (sound.flat name op sets).below)
      (fun _ store next call reply orderly _ _ sound effect roomy grows =>
        orderly.step sound effect roomy (unmixed.of_prefix grows))
      fresh.settled (fresh_orderly fresh short)
    obtain ⟨found, next, ran, -, -, members⟩ := orderly.reachableCommits enough
    refine ⟨found, next, ran, fun name member => ?_⟩
    obtain ⟨target, held⟩ := (lists name).mpr member
    have read := (Repo.branchAt_of_tip settled.stands settled.tidy held).2
    exact ⟨target, by rw [getBranch_apply, read, Run.ofExcept_ok],
      fun hash reaches => (members hash).mpr ⟨name, target, held, reaches⟩⟩

end DiskStore
end Epochs

namespace Epochs.DiskStore

open Lib

attribute [local instance] Blake3.linked

def branched : List StoreCall :=
  [.createBranch "dev" sampleStart.2, .setHead "dev", .deleteBranch "main"]

theorem branches_listed_branched
    : let last := Run.stateOf (branched.mapM (StoreCall.run 0) sample)
      (∃ names, listBranches last = .ok names last ∧ names.Nodup
        ∧ ∀ name, name ∈ names ↔ name ∈ ["dev"])
      ∧ ∃ found next, reachableCommits last.budget last = .ok found next
        ∧ ∀ name ∈ ["dev"], ∃ target, getBranch name last = .ok { name, target } last
          ∧ target ∈ found := by
  have returned : (Run.valueOf (branched.mapM (StoreCall.run 0) sample)).isSome = true := by
    decide +kernel
  have flat : Along (fun _ call => call.Flat) 0 sample branched := by
    refine ⟨?_, ?_, ?_, trivial⟩
    all_goals
      intro name op sets
      cases sets
    all_goals decide
  have sound : Along StoreCall.Sound 0 sample branched := by
    have stored := whole_sample.commit
    refine ⟨⟨flat.1, ?_, ?_, ?_⟩, ⟨flat.2.1, ?_, ?_, ?_⟩, ⟨flat.2.2.1, ?_, ?_, ?_⟩, trivial⟩
    · exact fun _ _ _ drafts => by cases drafts
    · exact fun _ _ _ drafts => by cases drafts
    · intro name op sets target set_
      cases sets
      exact Option.some.inj set_ ▸ stored
    · exact fun _ _ _ drafts => by cases drafts
    · exact fun _ _ _ drafts => by cases drafts
    · exact fun _ _ sets => by cases sets
    · exact fun _ _ _ drafts => by cases drafts
    · exact fun _ _ _ drafts => by cases drafts
    · intro name op sets target set_
      cases sets
      cases set_
  have names : branchesAfter "main" branched = ["dev"] := by decide
  obtain ⟨listed, reached⟩ := branches_listed (by decide) FileSystem.wellFormed_empty rfl
    (unused_bare ["r"]) (by decide) init_sample (flat.session returned) (by decide +kernel)
  rw [names] at listed reached
  refine ⟨listed, ?_⟩
  obtain ⟨found, next, ran, each⟩ := reached (by decide +kernel) (by decide +kernel)
    (sound.session returned) _ le_rfl
  refine ⟨found, next, ran, fun name member => ?_⟩
  obtain ⟨target, read, covers⟩ := each name member
  exact ⟨target, read, covers target .refl⟩

def nested : DiskStore :=
  let committed := StoreCall.run 0 (.commitWithRoot [sampleStart.2] Hash.zero "second") sample
  match Run.valueOf committed with
  | some (some hash) =>
    Run.stateOf (StoreCall.run 0 (.createBranch "feature/foo" hash) (Run.stateOf committed))
  | _ => sample

/-- The branch can be read but is not listed, and its commit is not found. -/
theorem branches_not_listed
    : (Run.valueOf (checkout "feature/foo" nested)).map Commit.message = some "second"
      ∧ Run.valueOf (listBranches nested) = some ["main"]
      ∧ Run.valueOf (reachableCommits 8 nested) = some [sampleStart.2]
      ∧ (Run.valueOf (getBranch "feature/foo" nested)).map Branch.target ≠ some sampleStart.2 := by
  decide +kernel

end Epochs.DiskStore
