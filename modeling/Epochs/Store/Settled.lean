import Epochs.Store.Calls
import Epochs.Store.Tips

/-! Stores whose files stand as their own operations left them. Storing objects keeps the refs,
and changing refs or HEAD keeps the objects.
-/

namespace Epochs

open Lib Run

namespace CasDisk

variable [Blake3] {disk : CasDisk} {world : World}

/-- The open files of a clean store are its own. -/
theorem Sane.anchored (sane : disk.Sane) : disk.Anchored where
  formed := sane.1.formed
  index := held_of_inodeAt sane.1.formed (.inl rfl) sane.1.indexed
  current := held_of_inodeAt sane.1.formed (owned_segmentPath disk _) sane.1.active

def Aside (repoPath path : Path) : Prop :=
  ∃ first rest, path = repoPath ++ first :: rest ∧ first ≠ "data" ∧ first ≠ "index.epi"

omit [Blake3] in
theorem Aside.not_owned {repoPath path : Path} (aside : Aside repoPath path)
    : ¬ Owned repoPath path := by
  obtain ⟨first, rest, rfl, notData, notIndex⟩ := aside
  rintro (same | ⟨more, same⟩)
  · simp only [List.append_cancel_left_eq, List.cons.injEq] at same
    exact notIndex same.1
  · rw [List.append_assoc] at same
    simp only [List.append_cancel_left_eq, List.cons_append, List.cons.injEq] at same
    exact notData same.1.symm

/-- A change of one file beside the store. -/
theorem Sane.around_of_alters (sane : disk.Sane) {target : Path}
    (aside : Aside disk.cas.repoPath target) (alters : FileSystem.Alters target disk.fs world.fs)
    : Around disk world := by
  have different {path : Path}
      (inside : Owned disk.cas.repoPath path ∨ path <+: disk.cas.repoPath ++ ["data"])
      : path ≠ target := by
    rintro rfl
    rcases inside with owned | above
    · exact aside.not_owned owned
    · obtain ⟨first, rest, rfl, notData, -⟩ := aside
      obtain ⟨rest', same⟩ := above
      rw [List.append_assoc] at same
      simp only [List.append_cancel_left_eq, List.cons_append, List.cons.injEq] at same
      exact notData same.1
  refine ⟨alters.formed sane.1.formed, fun path inside => ?_, fun path inode owned found => ?_⟩
  · rcases alters.nodes path (different inside) with kept | ⟨absent, -, above⟩
    · exact kept
    · obtain ⟨first, rest, rfl, notData, notIndex⟩ := aside
      rcases inside with (rfl | ⟨more, rfl⟩) | dir
      · obtain ⟨more, same⟩ := above
        rw [List.append_assoc] at same
        simp only [List.append_cancel_left_eq, List.cons_append, List.cons.injEq] at same
        exact absurd same.1.symm notIndex
      · obtain ⟨other, same⟩ := above
        simp only [List.append_assoc, List.append_cancel_left_eq, List.cons_append,
          List.cons.injEq] at same
        exact absurd same.1.symm notData
      · have found : disk.fs.node path = some .dir := sane.1.dirs path dir
        rw [found] at absent
        cases absent
  · exact alters.contents sane.1.formed path inode (different (.inl owned)) found

end CasDisk

namespace Repo

theorem aside_refPath (repo : Repo) (name : String)
    : CasDisk.Aside repo.path (repo.refPath name) :=
  ⟨"refs", "heads" :: refParts name, by simp [refPath, heads], by decide, by decide⟩

theorem aside_heads (repo : Repo) (parts : Path)
    : CasDisk.Aside repo.path (heads repo.path ++ parts) :=
  ⟨"refs", "heads" :: parts, by simp [heads], by decide, by decide⟩

theorem aside_headPath (repo : Repo) : CasDisk.Aside repo.path (headPath repo.path) :=
  ⟨"HEAD", [], rfl, by decide, by decide⟩

end Repo

namespace DiskStore

variable [Blake3] {store before after : DiskStore}

/-- A store as its own operations leave it. -/
structure Settled (store : DiskStore) : Prop where
  sane : store.cas.store.Sane
  told : store.cas.Told
  home : store.cas.store.cas.repoPath = store.repo.path
  stands : store.repo.Stands store.world.fs
  tidy : store.repo.Tidy store.world.fs
  near : World.Direct (Repo.headPath store.repo.path)

theorem Settled.formed (settled : store.Settled) : store.world.fs.WellFormed :=
  settled.sane.1.formed

def tip (store : DiskStore) (parts : Path) : Option Hash := store.repo.tip store.world.fs parts

-- Storing objects

/-- Storing objects leaves every file beside the store. -/
theorem Serves.elsewhere (serves : Serves before after) (settled : before.Settled) {path : Path}
    (aside : CasDisk.Aside before.repo.path path)
    : after.world.fs.node path = before.world.fs.node path
      ∧ after.world.fs.fileAt path = before.world.fs.fileAt path := by
  have home := settled.home
  exact serves.objects.spares.elsewhere settled.sane.anchored path
    (home ▸ aside.not_owned)

theorem Serves.tip (serves : Serves before after) (settled : before.Settled) (parts : Path)
    : after.tip parts = before.tip parts := by
  rw [DiskStore.tip, DiskStore.tip, Repo.tip, Repo.tip, serves.repo,
    (serves.elsewhere settled (before.repo.aside_heads parts)).2]

/-- Every directory that stands is still there. -/
theorem Serves.stands (serves : Serves before after) (settled : before.Settled)
    (sane : after.cas.store.Sane)
    : after.repo.Stands after.world.fs := by
  refine ⟨serves.repo ▸ settled.stands.plain, fun front above => ?_⟩
  rw [serves.repo] at above
  rcases List.prefix_or_prefix_of_prefix above (List.prefix_append before.repo.path _ :
      before.repo.path <+: Repo.heads before.repo.path) with inPath | ⟨rest, rfl⟩
  · have home : after.cas.store.cas.repoPath = before.repo.path :=
      serves.objects.spares.repoPath.trans settled.home
    exact sane.1.dirs front (home ▸ inPath.trans (List.prefix_append _ _))
  · cases rest with
    | nil =>
      have home : after.cas.store.cas.repoPath = before.repo.path :=
        serves.objects.spares.repoPath.trans settled.home
      exact sane.1.dirs _ (home ▸ (by simp))
    | cons first rest =>
      have named : first = "refs" := by
        rw [Repo.heads, List.prefix_append_right_inj] at above
        exact (List.cons_prefix_cons.mp above).1
      have aside : CasDisk.Aside before.repo.path (before.repo.path ++ first :: rest) :=
        ⟨first, rest, rfl, named ▸ by decide, named ▸ by decide⟩
      rw [(serves.elsewhere settled aside).1]
      exact settled.stands.dirs _ above

theorem Settled.of_sane (settled : before.Settled) (serves : Serves before after)
    (sane : after.cas.store.Sane) (told : after.cas.Told)
    : after.Settled where
  sane := sane
  told := told
  home := (serves.objects.spares.repoPath.trans settled.home).trans (by rw [serves.repo])
  stands := serves.stands settled sane
  tidy parts bytes held := by
    rw [serves.repo, (serves.elsewhere settled (before.repo.aside_heads parts)).2] at held
    rw [serves.repo]
    exact settled.tidy parts bytes held
  near := serves.repo ▸ settled.near

theorem Settled.serves (settled : before.Settled) (serves : Serves before after)
    (roomy : Traced.Roomy after.cas.handed)
    : after.Settled :=
  settled.of_sane serves (serves.objects.sane settled.sane roomy)
    (serves.objects.told settled.sane roomy settled.told)

theorem Settled.looks (settled : before.Settled) (looks : Looks before after) : after.Settled :=
  settled.of_sane looks.calls.toServes (looks.objects.sane settled.sane) fun hash record held => by
    rw [looks.handed]
    exact settled.told hash record (looks.objects.view settled.sane ▸ held)

-- Changing files beside the objects

/-- A step that leaves the objects of a settled store, and the store settled. -/
structure Turns (before after : DiskStore) : Prop where
  settled : after.Settled
  view : after.view = before.view
  handed : after.cas.handed = before.cas.handed
  cache : after.commitCache = before.commitCache
  path : after.repo.path = before.repo.path

theorem Settled.turns_of_alters (settled : store.Settled) {world : World} {target : Path}
    (aside : CasDisk.Aside store.repo.path target)
    (alters : FileSystem.Alters target store.world.fs world.fs)
    (lives : store.world.Lives world) (tidy : store.repo.Tidy world.fs)
    : Turns store (store.setWorld world) := by
  have around := settled.sane.around_of_alters (settled.home.symm ▸ aside) alters
  refine ⟨⟨⟨around.clean settled.sane.1, lives settled.sane.2⟩, ?_, settled.home, ?_, tidy,
    settled.near⟩,
    around.view settled.sane.1.toAttached, rfl, rfl, rfl⟩
  · intro hash record held
    rw [show (store.setWorld world).cas.store.view = store.cas.store.view from
      around.view settled.sane.1.toAttached] at held
    exact settled.told hash record held
  · exact ⟨settled.stands.plain, fun front above => alters.dirs (settled.stands.dirs front above)⟩

theorem Turns.coherent (turns : Turns before after) (coherent : before.Coherent)
    : after.Coherent :=
  coherent.of_extends turns.cache (turns.view ▸ View.Extends.refl _)

def refOp (name : String) (op : Repo.RefOp) : Run EpochsError DiskStore Unit := fun store =>
  onWorld (op.run store.repo name) store

omit [Blake3] in
theorem refOp_apply (name : String) (op : Repo.RefOp) (store : DiskStore)
    : refOp name op store
      = match op.run store.repo name store.world with
        | .ok value world => .ok value (store.setWorld world)
        | .error fault world => .error fault (store.setWorld world) := by
  rw [refOp, onWorld, zoom]
  cases op.run store.repo name store.world <;> rfl

omit [Blake3] in
theorem createBranch_eq (name : String) (target : Hash)
    : createBranch name target
      = (do
        if !(← contains target) then
          fail (.commitNotFound target)
        else
          refOp name (.create target)) := rfl

omit [Blake3] in
theorem updateBranch_eq (name : String) (target : Hash)
    : updateBranch name target
      = (do
        if !(← contains target) then
          fail (.commitNotFound target)
        else
          refOp name (.update target)) := rfl

omit [Blake3] in
theorem deleteBranch_eq (name : String) : deleteBranch name = refOp name .delete := rfl

omit [Blake3] in
theorem refOp_repo (name : String) (op : Repo.RefOp)
    : Within (fun before after => after.repo = before.repo) (refOp name op) := by
  intro store
  rw [refOp_apply]
  cases op.run store.repo name store.world <;> rfl

omit [Blake3] in
theorem refOp_fs (name : String) (op : Repo.RefOp) (store : DiskStore)
    : (stateOf (refOp name op store)).world.fs
      = (stateOf (op.run store.repo name store.world)).fs := by
  rw [refOp_apply]
  cases op.run store.repo name store.world <;> rfl

variable {name : String}

/-- However it ends, a change of a ref leaves a settled store settled. -/
theorem refOp_turns (settled : store.Settled) (below : Repo.Below name)
    (op : Repo.RefOp)
    : Turns store (stateOf (refOp name op store)) := by
  have meets := op.run_meets settled.stands below
  have tidy := op.tidy settled.stands settled.formed below settled.sane.2 settled.tidy
  have aside := store.repo.aside_refPath name
  rw [refOp_apply]
  cases ran : op.run store.repo name store.world with
  | ok value world =>
    rw [ran] at meets tidy
    exact settled.turns_of_alters aside meets.1 meets.2.1 tidy
  | error fault world =>
    rw [ran] at meets tidy
    obtain ⟨alters, ⟨-, lives, -⟩ | killed⟩ := meets
    · exact settled.turns_of_alters aside alters lives tidy
    · exact absurd settled.sane.2 killed.2

/-- A change of a ref that is made sets one tip. -/
theorem tip_of_refOp (settled : store.Settled) (below : Repo.Below name)
    (op : Repo.RefOp) {next : DiskStore} (ran : refOp name op store = .ok () next) (parts : Path)
    : next.tip parts = if parts = Repo.refParts name then op.target else store.tip parts := by
  rw [refOp_apply] at ran
  cases changed : op.run store.repo name store.world with
  | error fault world =>
    rw [changed] at ran
    cases ran
  | ok value world =>
    rw [changed] at ran
    cases ran
    exact op.tip_of_ok settled.stands settled.formed below changed parts

/-- A ref that was written is read. -/
theorem branchAt_of_refOp (settled : store.Settled) (below : Repo.Below name)
    (op : Repo.RefOp) {target : Hash} (writes : op.target = some target) {next : DiskStore}
    (ran : refOp name op store = .ok () next)
    : next.repo.branchAt next.world.fs name = .ok { name, target } := by
  rw [refOp_apply] at ran
  cases changed : op.run store.repo name store.world with
  | error fault world =>
    rw [changed] at ran
    cases ran
  | ok value world =>
    rw [changed] at ran
    cases ran
    exact op.branchAt_of_ok settled.stands below writes changed

/-- Pointing HEAD at a branch: its file alone is written, or nothing. -/
theorem setHead_meets (settled : store.Settled) (name : String)
    : Meets
        (fun _ next => Turns store next ∧ next.repo = { store.repo with head := some name }
          ∧ World.present store.world.fs (store.repo.branchRefPath name) = true
          ∧ FileSystem.Alters (Repo.headPath store.repo.path) store.world.fs next.world.fs
          ∧ next.world.fs.fileAt (Repo.headPath store.repo.path) = some (Repo.headText name))
        (fun reason next => (∃ error, reason = .err error) ∧ next = store)
        (setHead name store) := by
  have meets := Repo.setHead_meets settled.stands name
  rw [setHead, get_bind_apply]
  rw [bind_apply, onWorld, zoom]
  cases ran : store.repo.setHead name store.world with
  | ok repo world =>
    rw [ran] at meets
    obtain ⟨rfl, present, alters, lives, written⟩ := meets
    have tidy : store.repo.Tidy world.fs := by
      intro parts bytes held
      rw [alters.fileAt settled.formed (by simp [Repo.heads, Repo.headPath])] at held
      exact settled.tidy parts bytes held
    have turns := settled.turns_of_alters store.repo.aside_headPath alters lives tidy
    have kept := turns.settled
    exact ⟨⟨⟨kept.sane, kept.told, kept.home, ⟨kept.stands.plain, kept.stands.dirs⟩, tidy,
      kept.near⟩,
      turns.view, rfl, rfl, rfl⟩, rfl, present, alters, written⟩
  | error fault world =>
    rw [ran] at meets
    rcases meets with ⟨error, rfl⟩ | ⟨killed, -⟩
    · exact ⟨error, rfl⟩
    · exact absurd settled.sane.2 killed.2

end DiskStore
end Epochs
