import Epochs.Ql.Runs
import Epochs.Ql.Statements
import Epochs.Store.Histories
import Epochs.Store.TornRefs

/-! Merges that move a branch forward. The branch moves exactly if its tip is an ancestor of the
source or the source itself; a merge that does not succeed leaves every ref.
-/

namespace Epochs

open Lib Run World

namespace Repo

variable {repo : Repo} {name : String} {world : World}

/-- A branch whose name leads to a file is moved, and only that file changes. -/
theorem updateBranch_of_file (alive : world.deadline = none) {path : Path} {inode : Nat}
    (resolved : resolve world.fs (repo.branchRefPath name) = .ok path)
    (found : world.fs.inodeAt path = some inode) (target : Hash)
    : ∃ next, repo.updateBranch name target world = .ok () next
        ∧ FileSystem.Alters path world.fs next.fs
        ∧ Lives world next
        ∧ repo.branchAt next.fs name = .ok { name, target } := by
  have here := FileSystem.inodeAt_eq_some.mp found
  have there : present world.fs (repo.branchRefPath name) = true := by
    simp [present, resolved, here]
  have exists_ : repo.refExists name world = .ok true world := by
    rw [refExists_apply, there]
  have parents : createParents (repo.branchRefPath name) world = .ok () world :=
    createParents_of_resolve resolved
  have meets := overwrite_meets (refText target) found
  have writes : repo.updateBranch name target world
      = (do change fun fs => fs.setContent inode []; append inode (refText target))
        world := by
    rw [updateBranch, bind_of_ok exists_]
    simp only [Bool.not_true, Bool.false_eq_true, if_false]
    rw [writeBranch, bind_of_ok parents, writeFile, get_bind_apply]
    simp only [resolved, here]
    rfl
  rw [← writes] at meets
  cases ran : repo.updateBranch name target world with
  | error reason next =>
    rw [ran] at meets
    exact absurd alive meets.1.2
  | ok _ next =>
    rw [ran] at meets
    obtain ⟨alters, lives, written⟩ := meets
    refine ⟨next, rfl, alters, lives, branchAt_eq_ok.mpr ⟨rfl, path, ?_, ?_⟩⟩
    · exact resolve_mono (fun _ => alters.dirs) resolved
    · rw [written, Option.bind_some, tipOf_refText]

end Repo

namespace DiskStore

variable [Blake3] {store : DiskStore}

/-- In whole histories the ancestor test is the reachability of commits. -/
theorem isAncestor_returns (readable : store.Readable) {ancestor descendant : Hash}
    (whole : store.view.Whole descendant) {fuel : Nat} (enough : store.budget ≤ fuel)
    : ∃ answer next, isAncestor fuel ancestor descendant store = .ok answer next
        ∧ Looks store next
        ∧ (answer = true ↔ store.view.Reaches descendant ancestor) := by
  by_cases same : ancestor = descendant
  · subst same
    exact ⟨true, store, by rw [isAncestor, if_pos rfl]; rfl, looks_frame.refl store,
      fun _ => .refl, fun _ => rfl⟩
  · obtain ⟨found, next, collected, looks, -, members⟩ := collectAncestors_spec readable whole enough
    refine ⟨found.contains ancestor, next, ?_, looks, ?_⟩
    · rw [isAncestor, if_neg same, bind_of_ok collected]
      rfl
    · rw [List.contains_iff_mem]
      exact members ancestor

theorem contains_of_commit {hash : Hash} {commit : Commit}
    (held : store.view.commit hash = some commit)
    : store.cas.store.cas.contains hash = true := by
  obtain ⟨payload, here, -⟩ := View.commit_eq_some.mp held
  by_contra absent
  rw [Bool.not_eq_true, CasStore.contains, Index.contains_eq_false] at absent
  simp [DiskStore.view, CasDisk.view, absent] at here

/-- A branch that can be read is moved to a stored object. -/
theorem updateBranch_of_read (settled : store.Settled) {name : String} {branch : Branch}
    (read : store.repo.branchAt store.world.fs name = .ok branch) {now : DiskStore}
    (looks : Looks store now) (target : Hash)
    : ∃ path next,
        resolve store.world.fs (store.repo.branchRefPath name) = .ok path
        ∧ refOp name (.update target) now = .ok () next
        ∧ next.repo = store.repo
        ∧ next.repo.branchAt next.world.fs name = .ok { name, target }
        ∧ (∀ parts, Repo.heads store.repo.path ++ parts ≠ path → next.tip parts = store.tip parts)
        ∧ (CasDisk.Aside store.repo.path path → next.view = store.view) := by
  obtain ⟨-, path, resolved, held⟩ := Repo.branchAt_eq_ok.mp read
  obtain ⟨bytes, file, -⟩ := Option.bind_eq_some_iff.mp held
  obtain ⟨inode, found, -⟩ := Option.map_eq_some_iff.mp file
  have settledNow := settled.looks looks
  have nodes := looks.objects.node settled.sane
  have resolvedNow : resolve now.world.fs (now.repo.branchRefPath name) = .ok path := by
    rw [looks.repo]
    exact resolve_mono (fun path isDir => (nodes path).trans isDir) resolved
  have foundNow : now.world.fs.inodeAt path = some inode :=
    FileSystem.inodeAt_eq_some.mpr ((nodes path).trans (FileSystem.inodeAt_eq_some.mp found))
  obtain ⟨world, ran, alters, lives, again⟩ :=
    Repo.updateBranch_of_file settledNow.sane.2 resolvedNow foundNow target
  refine ⟨path, now.setWorld world, resolved, ?_, looks.repo, again, fun parts other => ?_,
    fun aside => ?_⟩
  · rw [refOp_apply, show (Repo.RefOp.update target).run now.repo name now.world = _ from ran]
  · have same := looks.calls.toServes.tip settled parts
    rw [← same]
    have kept : world.fs.fileAt (Repo.heads now.repo.path ++ parts)
        = now.world.fs.fileAt (Repo.heads now.repo.path ++ parts) :=
      alters.fileAt settledNow.formed (by rw [looks.repo]; exact other)
    exact congrArg (Option.bind · Repo.tipOf) kept
  · have around := settledNow.sane.around_of_alters
      (settledNow.home.symm ▸ (show CasDisk.Aside now.repo.path path from looks.repo ▸ aside)) alters
    exact (around.view settledNow.sane.1.toAttached).trans (looks.objects.view settled.sane)

end DiskStore

namespace Ql.Engine

open DiskStore

variable [Blake3] {store last : DiskStore}

omit [Blake3] in
/-- The branch that a merge moves is the one whose tip it compares. -/
theorem branchAt_of_into {into : TargetRef} {tip : Hash} {name : String}
    (resolved : resolveTargetRef into store = .ok tip last) (named : mergeBranch into store = .ok name last)
    : store.repo.branchAt store.world.fs name = .ok { name, target := tip } := by
  cases into with
  | branch other =>
    cases named
    obtain ⟨branch, middle, read, ended⟩ := bind_eq_ok.mp resolved
    cases ended
    rw [lift, mapErr_eq_ok, getBranch_apply] at read
    cases found : store.repo.branchAt store.world.fs name with
    | error error =>
      rw [found] at read
      cases read
    | ok branch' =>
      rw [found] at read
      cases read
      have own := (Repo.branchAt_eq_ok.mp found).1
      rw [← own]
  | head =>
    obtain ⟨branch, middle, read, ended⟩ := bind_eq_ok.mp resolved
    cases ended
    obtain ⟨branch', middle', read', ended'⟩ := bind_eq_ok.mp named
    cases ended'
    cases read.symm.trans read'
    exact (headBranch_eq_ok read).2.2
  | commit hex => cases named
  | tag other => cases named

/-- The statement, after its targets are resolved. -/
theorem executeStatement_merge [HashSeed] {stmt : MergeStmt} (forward : stmt.strategy = .fastForward)
    {source tip : Hash} {name : String}
    (fromSource : resolveTargetRef stmt.source store = .ok source store)
    (fromInto : resolveTargetRef stmt.into store = .ok tip store)
    (named : mergeBranch stmt.into store = .ok name store) {fuel : Nat} {answer : Bool}
    {middle : DiskStore} (tested : isAncestor fuel tip source store = .ok answer middle)
    : executeStatement fuel (.version (.merge stmt)) store
      = (if !answer then
          fail "fast-forward not possible: source is not a descendant of target"
        else do
          lift (updateBranch name source)
          pure (.mutation
            { summary := s!"fast-forwarded '{name}'", hash := some source.toHex })
        : Exec ExecResult) middle := by
  have lifted : lift (isAncestor fuel tip source) store = .ok answer middle :=
    mapErr_eq_ok.mpr tested
  rw [executeStatement, execVersion, execMerge, forward]
  simp only [bind_assoc]
  rw [bind_of_ok fromSource, bind_of_ok fromInto, bind_of_ok named,
    bind_of_ok lifted]
  cases answer with
  | false => rfl
  | true => simp only [Bool.not_true, Bool.false_eq_true, if_false, bind_assoc, pure_bind]

/-- A merge that does not succeed leaves HEAD and every ref. -/
theorem refs_of_failed_merge [HashSeed] (settled : store.Settled) {stmt : MergeStmt} {fuel : Nat}
    {fault : Fault ExecError}
    (failed : executeStatement fuel (.version (.merge stmt)) store = .error fault last)
    : last.repo = store.repo ∧ ∀ parts, last.tip parts = store.tip parts := by
  have meets := (@executeStatement_meets _ fuel store _ (.version (.merge stmt))).of_error failed
  cases meets with
  | early calls => exact ⟨calls.repo, calls.toServes.tip settled⟩
  | refused moves =>
    cases moves with
    | @merge _ source into name _ fromSource fromInto named forward =>
      have looks := (isAncestor_within looks_frame loadCommit_looks fuel into source).of_ok forward
      exact ⟨looks.repo, looks.calls.toServes.tip settled⟩
  | moving moves changed =>
    cases moves with
    | @merge _ source into name _ fromSource fromInto named forward =>
      have looks := (isAncestor_within looks_frame loadCommit_looks fuel into source).of_ok forward
      obtain ⟨path, next, -, moved, -⟩ := updateBranch_of_read settled
        (branchAt_of_into fromInto named) looks source
      cases changed.symm.trans moved
  | heading checkout => cases checkout
  | headed checkout => cases checkout

/-- In a store whose parents are commits a merge with the strategy `FAST_FORWARD` of a commit into a
branch or HEAD succeeds exactly if the commit reaches the tip of the branch. Then the tip is the
commit, which reaches all that the old tip reaches, and no other ref has changed. A merge that does
not succeed has changed no ref.
-/
theorem merge_fastForward_iff [HashSeed] (settled : store.Settled) (coherent : store.Coherent)
    (closed : store.view.Closed) (stmt : MergeStmt) (forward : stmt.strategy = .fastForward)
    : (∀ fuel fault last, executeStatement fuel (.version (.merge stmt)) store = .error fault last
        → last.repo = store.repo ∧ ∀ parts, last.tip parts = store.tip parts)
      ∧ ∀ source commit tip name,
        resolveTargetRef stmt.source store = .ok source store
        → store.view.commit source = some commit
        → resolveTargetRef stmt.into store = .ok tip store
        → mergeBranch stmt.into store = .ok name store
        → ∃ budget, ∀ fuel, budget ≤ fuel
          → ((∃ result last, executeStatement fuel (.version (.merge stmt)) store = .ok result last)
              ↔ store.view.Reaches source tip)
            ∧ ∀ result last,
              executeStatement fuel (.version (.merge stmt)) store = .ok result last
              → getBranch name last = .ok { name, target := source } last
                ∧ (∀ hash, store.view.Reaches tip hash → store.view.Reaches source hash)
                ∧ ∃ path, World.resolve store.world.fs (store.repo.branchRefPath name) = .ok path
                  ∧ (∀ parts, Repo.heads store.repo.path ++ parts ≠ path
                    → last.tip parts = store.tip parts)
                  ∧ (CasDisk.Aside store.repo.path path → last.view = store.view) := by
  refine ⟨fun fuel fault last failed => refs_of_failed_merge settled failed, ?_⟩
  intro source commit tip name fromSource held fromInto named
  have readable : store.Readable := ⟨settled.sane, coherent⟩
  refine ⟨store.budget, fun fuel enough => ?_⟩
  obtain ⟨answer, middle, tested, looks, reaches⟩ := @isAncestor_returns _ store readable tip source
    (closed.whole held) fuel enough
  have outcome := executeStatement_merge forward fromSource fromInto named tested
  cases answer with
  | false =>
    have unreached : ¬ store.view.Reaches source tip := fun here => by cases reaches.mpr here
    have failed {result : ExecResult} {last : DiskStore}
        (ran : executeStatement fuel (.version (.merge stmt)) store = .ok result last) : False := by
      cases outcome.symm.trans ran
    exact ⟨⟨fun ⟨_, _, ran⟩ => (failed ran).elim, fun here => absurd here unreached⟩,
      fun _ _ ran => (failed ran).elim⟩
  | true =>
    have onward := reaches.mp rfl
    obtain ⟨path, next, resolved, moved, repo, read, others, objects⟩ := updateBranch_of_read
      settled (branchAt_of_into fromInto named) looks source
    have updated : lift (updateBranch name source) middle = .ok () next := by
      refine Run.mapErr_eq_ok.mpr ?_
      rw [updateBranch_eq, contains, bind_assoc, Run.get_bind_apply]
      rw [pure_bind, contains_of_commit ((looks.view readable).symm ▸ held)]
      exact moved
    rw [if_neg (by decide), Run.bind_of_ok updated] at outcome
    refine ⟨⟨fun _ => onward, fun _ => ⟨_, next, outcome⟩⟩, fun result last ran => ?_⟩
    cases outcome.symm.trans ran
    refine ⟨?_, fun hash further => onward.trans further, path, resolved, others, objects⟩
    rw [getBranch_apply, read, Run.ofExcept_ok]

end Ql.Engine
end Epochs

namespace Epochs.Ql.Engine

open Lib DiskStore Run World

attribute [local instance] Blake3.linked insertionOrder

/-- `MERGE BRANCH topic INTO BRANCH main STRATEGY FAST_FORWARD` after a commit on `topic`. -/
theorem merge_fastForward_iff_branchOff
    : ∃ second last, branchOff sample = .ok second last
        ∧ ∃ budget, ∀ fuel, budget ≤ fuel → ∃ result next,
          executeStatement fuel
            (.version (.merge
              { source := .branch "topic", into := .branch "main", strategy := .fastForward })) last
            = .ok result next
          ∧ getBranch "main" next = .ok { name := "main", target := second } next := by
  obtain ⟨second, last, commit, ran, orderly, -, held, parents, -, topic, main, -⟩ := branchOff_sample
  have resolves {name : String} {target : Hash} (tip : last.tip [name] = some target)
      : resolveTargetRef (.branch name) last = .ok target last := by
    have read := (Repo.branchAt_of_tip orderly.settled.stands orderly.settled.tidy tip).2
    have lifted : lift (getBranch name) last = .ok { name, target } last := by
      refine Run.mapErr_eq_ok.mpr ?_
      rw [getBranch_apply, read, Run.ofExcept_ok]
    rw [resolveTargetRef, Run.bind_of_ok lifted]
    rfl
  obtain ⟨budget, merges⟩ := (merge_fastForward_iff orderly.settled orderly.coherent orderly.closed
    { source := .branch "topic", into := .branch "main", strategy := .fastForward } rfl).2
    second commit sampleStart.2 "main" (resolves topic) held (resolves main) rfl
  refine ⟨second, last, ran, budget, fun fuel enough => ?_⟩
  obtain ⟨succeeds, moved⟩ := merges fuel enough
  obtain ⟨result, next, merged⟩ := succeeds.mpr (.single (by
    rw [View.parents_of_commit held, parents]
    exact List.mem_singleton_self _))
  exact ⟨result, next, merged, (moved result next merged).1⟩

end Epochs.Ql.Engine
