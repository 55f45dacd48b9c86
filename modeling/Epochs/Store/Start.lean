import Epochs.Core.Blake3
import Epochs.Store.Settled

/-! Stores that were just initialised, and stores that are closed and opened again. -/

namespace Epochs.DiskStore

open Lib Run World FileSystem

variable [Blake3] {store : DiskStore}

-- Writing an object

omit [Blake3] in
/-- Work on the objects leaves the cache of commits. -/
theorem onCas_cache {α : Type} (run : Run EpochsError (Traced CasDisk) α)
    : Within (fun before after => after.commitCache = before.commitCache) (onCas run) := by
  have always : Within (fun _ _ => True) run := fun _ => trivial
  exact always.zoom fun _ _ _ => rfl

omit [Blake3] in
theorem onWorld_cache {α : Type} (run : Run EpochsError World α)
    : Within (fun before after => after.commitCache = before.commitCache) (onWorld run) := by
  have always : Within (fun _ _ => True) run := fun _ => trivial
  exact always.zoom fun _ _ _ => rfl

variable {hash : Hash} {next : DiskStore}

theorem put_handed {recordType : RecordType} {payload : Bytes}
    (ran : onCas (Traced.put recordType payload) store = .ok hash next)
    : next.cas.handed = store.cas.handed ++ [(recordType, payload)] := by
  have known := Traced.put_handed recordType payload store.cas
  rw [onCas, zoom] at ran
  cases wrote : Traced.put recordType payload store.cas with
  | ok value cas =>
    rw [wrote] at ran known
    cases ran
    exact known
  | error fault cas =>
    rw [wrote] at ran
    cases ran

/-- An object that was written is held under its content hash, unless another one was. -/
theorem put_eq_ok (sane : store.cas.store.Sane) {recordType : RecordType} {payload : Bytes}
    (roomy : Traced.Roomy next.cas.handed)
    (ran : onCas (Traced.put recordType payload) store = .ok hash next)
    : hash = Hash.ofBytes payload ∧ next.view = store.view.add hash (recordType, payload) := by
  have fits : payload.length + 45 < 2 ^ 32 := by
    rw [put_handed ran] at roomy
    exact roomy (recordType, payload) (List.mem_append_right _ (List.mem_singleton_self _))
  rw [onCas, zoom, Traced.put_apply, Traced.onStore_apply] at ran
  simp only [Traced.handOver] at ran
  rcases CasDisk.put_cases sane.valid recordType (.inl fits) with
    ⟨written, entry, found⟩ | ⟨fresh, last, entry, written, attached, stores⟩
      | ⟨-, error, last, written, -⟩
  all_goals rw [show CasBackend.put recordType payload store.cas.store = _ from written] at ran
  · cases ran
    obtain ⟨held, here⟩ := sane.1.honest _ _ found
    exact ⟨rfl, (View.add_of_held here _).symm⟩
  · cases ran
    exact ⟨rfl, stores.view_eq_add sane.1.toAttached sane.1.honest fresh⟩
  · cases ran

def nothing : View := fun _ => none

/-- A store just initialised: it holds one commit, on one branch, which HEAD names. -/
structure Fresh (store : DiskStore) (path : Path) (branch message : String) (genesis : Hash)
    : Prop where
  settled : store.Settled
  repo : store.repo = { path, head := some branch }
  cache : store.commitCache = LruMap.new commitCacheCap
  headFile : store.world.fs.fileAt (Repo.headPath path) = some (Repo.headText branch)
  read : store.repo.branchAt store.world.fs branch = .ok { name := branch, target := genesis }
  tips : ∀ parts, store.tip parts = if parts = Repo.refParts branch then some genesis else none
  stored : ∃ now < 2 ^ 64,
    let payload := (Commit.new [] Hash.zero now message).encodePayload
    genesis = Hash.ofBytes payload ∧ store.view = nothing.add genesis (.commit, payload)
      ∧ store.cas.handed = [(.commit, payload)]

/-- A store over opened files of a directory that held nothing. -/
theorem assemble_settled {world : World} {repo : Repo} {cas : CasStore} {fs : FileSystem}
    (stands : repo.Stands fs) (blank : Repo.Blank fs repo.path)
    (near : Direct (Repo.headPath repo.path)) (alive : world.deadline = none)
    (opens : CasDisk.Opens fs repo.path { world, cas })
    : (assemble repo cas world).Settled
      ∧ (∀ hash, (assemble repo cas world).view hash = none)
      ∧ (∀ parts, (assemble repo cas world).tip parts = none) := by
  obtain ⟨clean, unheld⟩ := opens.clean (blank _ .index) fun name => blank _ (.segment name)
  have still : ∀ front, front <+: Repo.heads repo.path → world.fs.node front = some .dir :=
    fun front above => opens.grows.kept front _ (stands.dirs front above)
  have noRefs (parts : Path) : world.fs.fileAt (Repo.heads repo.path ++ parts) = none := by
    have unnumbered : world.fs.inodeAt (Repo.heads repo.path ++ parts) = none := by
      cases parts with
      | nil =>
        have dir := still (Repo.heads repo.path) List.prefix_rfl
        simp [inodeAt, dir]
      | cons part parts =>
        refine inodeAt_of_none ?_
        have absent := blank _ (.ref part parts)
        cases found : world.fs.node (Repo.heads repo.path ++ part :: parts) with
        | none => rfl
        | some node =>
          rcases opens.grows.added _ node found with old | above | index | segment
          · rw [absent] at old
            cases old
          · simp [Repo.heads, List.cons_prefix_cons] at above
          · simp [Repo.heads] at index
          · simp [Repo.heads, segmentPathFor] at segment
    rw [fileAt, unnumbered, Option.map_none]
  refine ⟨⟨⟨clean, alive⟩, fun hash record held => ?_, opens.repoPath, ⟨stands.plain, still⟩,
    fun parts bytes held => ?_, near⟩, unheld, fun parts => ?_⟩
  · rw [show (assemble repo cas world).cas.store.view hash = none from unheld hash] at held
    cases held
  · rw [show (assemble repo cas world).world.fs = world.fs from rfl,
      show (assemble repo cas world).repo = repo from rfl, noRefs] at held
    cases held
  · rw [tip, Repo.tip, show (assemble repo cas world).world.fs = world.fs from rfl,
      show (assemble repo cas world).repo = repo from rfl, noRefs, Option.bind_none]

variable {message : String}

theorem writeGenesis_eq_ok (sane : store.cas.store.Sane)
    (roomy : Traced.Roomy next.cas.handed)
    (ran : writeGenesis message store = .ok hash next)
    : Serves store next ∧ next.commitCache = store.commitCache
      ∧ ∃ now < 2 ^ 64,
        let payload := (Commit.new [] Hash.zero now message).encodePayload
        hash = Hash.ofBytes payload ∧ next.view = store.view.add hash (.commit, payload)
          ∧ next.cas.handed = store.cas.handed ++ [(.commit, payload)] := by
  obtain ⟨now, first, clock, ran⟩ := bind_eq_ok.mp ran
  obtain ⟨written, second, put, ran⟩ := bind_eq_ok.mp ran
  obtain ⟨_, third, flushed, ran⟩ := bind_eq_ok.mp ran
  cases ran
  have ticked : Looks store first := by
    have looks := nowMillis_looks store
    rwa [clock] at looks
  have called : Serves first second := by
    have serves := putCommit_serves (Commit.new [] Hash.zero now message).encodePayload first
    rwa [put] at serves
  have settled : Looks second next := by
    have looks := flushCas_looks second
    rwa [flushed] at looks
  have saneFirst := ticked.objects.sane sane
  have roomySecond : Traced.Roomy second.cas.handed := settled.handed ▸ roomy
  obtain ⟨same, view⟩ := put_eq_ok saneFirst roomySecond put
  have saneSecond := called.objects.sane saneFirst roomySecond
  have small : now < 2 ^ 64 := by
    have read : now = store.world.clock store.world.readings % 2 ^ 64 := by
      rw [onWorld, zoom] at clock
      cases clock
      rfl
    rw [read]
    exact Nat.mod_lt _ (by decide)
  refine ⟨serves_frame.trans ticked.calls.toServes
    (serves_frame.trans called settled.calls.toServes), ?_, now, small, same, ?_, ?_⟩
  · have atFirst := onWorld_cache nowMillis store
    have atSecond := onCas_cache (Traced.put .commit
      (Commit.new [] Hash.zero now message).encodePayload) first
    have atNext := onCas_cache (Traced.onStore CasDisk.flush) second
    rw [clock] at atFirst
    rw [put] at atSecond
    rw [show onCas (Traced.onStore CasDisk.flush) second = _ from flushed] at atNext
    exact (atNext.trans atSecond).trans atFirst
  · rw [show next.view = second.view from settled.objects.view saneSecond, view,
      show first.view = store.view from ticked.objects.view sane]
  · rw [settled.handed, put_handed put, ticked.handed]

omit [Blake3] in
theorem refOp_handed (name : String) (op : Repo.RefOp)
    : Within (fun before after => after.cas.handed = before.cas.handed) (refOp name op) := by
  intro store
  rw [refOp_apply]
  cases op.run store.repo name store.world <;> rfl

omit [Blake3] in
theorem setHead_handed (name : String)
    : Within (fun before after => after.cas.handed = before.cas.handed) (setHead name) := by
  refine .get_bind fun store => ?_
  rw [bind_apply, onWorld, zoom]
  cases store.repo.setHead name store.world <;> rfl

/-- The steps of the initialisation, as the operations of the store. -/
theorem initialise_eq (branch message : String)
    : initialise branch message
      = (do
        let genesis ← writeGenesis message
        refOp branch (.create genesis)
        setHead branch
        pure genesis) := by
  funext store
  simp only [initialise, setHead, bind_assoc]
  rfl

variable {path : Path}

/-- Initialising a store that holds nothing. -/
theorem initialise_fresh {branch : String} {genesis : Hash}
    (settled : store.Settled) (empty : ∀ hash, store.view hash = none)
    (unreferred : ∀ parts, store.tip parts = none) (at_ : store.repo.path = path)
    (cache : store.commitCache = LruMap.new commitCacheCap) (unhanded : store.cas.handed = [])
    (below : Repo.Below branch) (roomy : Traced.Roomy next.cas.handed)
    (ran : initialise branch message store = .ok genesis next)
    : next.Fresh path branch message genesis := by
  rw [initialise_eq] at ran
  obtain ⟨hash, first, wrote, ran⟩ := bind_eq_ok.mp ran
  obtain ⟨_, second, created, ran⟩ := bind_eq_ok.mp ran
  obtain ⟨_, third, headed, ran⟩ := bind_eq_ok.mp ran
  cases ran
  have handedSecond := refOp_handed branch (.create genesis) first
  have handedNext := setHead_handed branch second
  rw [created, stateOf_ok] at handedSecond
  rw [headed, stateOf_ok] at handedNext
  have roomyFirst : Traced.Roomy first.cas.handed := by
    rw [← handedSecond, ← handedNext]
    exact roomy
  obtain ⟨serves, sameCache, now, small, stored, view, handed⟩ :=
    writeGenesis_eq_ok settled.sane roomyFirst wrote
  have settledFirst := settled.serves serves roomyFirst
  have turned := refOp_turns settledFirst below (.create genesis)
  have tips := tip_of_refOp settledFirst below (.create genesis) created
  rw [created, stateOf_ok] at turned
  obtain ⟨turnedAgain, repo, present, alters, written⟩ :=
    (setHead_meets turned.settled branch).of_ok headed
  have pathFirst : first.repo.path = path := by rw [serves.repo, at_]
  have pathSecond : second.repo.path = path := turned.path.trans pathFirst
  have tipNext (parts : Path)
      : next.tip parts = if parts = Repo.refParts branch then some genesis else none := by
    have file : next.world.fs.fileAt (Repo.heads second.repo.path ++ parts)
        = second.world.fs.fileAt (Repo.heads second.repo.path ++ parts) :=
      alters.fileAt turned.settled.formed (by simp [Repo.heads, Repo.headPath])
    have same : next.tip parts = second.tip parts := by
      rw [tip, tip, Repo.tip, Repo.tip, turnedAgain.path, file]
    rw [same, tips, serves.tip settled, unreferred]
    rfl
  refine ⟨turnedAgain.settled, ?_, ?_, ?_, ?_, tipNext, now, small, stored, ?_, ?_⟩
  · rw [repo]
    exact congrArg (fun path => ({ path, head := some branch } : Repo)) pathSecond
  · rw [turnedAgain.cache, turned.cache, sameCache, cache]
  · rw [← pathSecond]
    exact written
  · have read := branchAt_of_refOp settledFirst below (.create genesis) rfl created
    have same : next.repo.branchAt next.world.fs branch
        = second.repo.branchAt next.world.fs branch := by
      rw [repo]
      rfl
    rw [same]
    refine Repo.branchAt_of_dirs turned.settled.stands below read (fun _ => alters.dirs) ?_
    have held := tipNext (Repo.refParts branch)
    rw [if_pos rfl, tip, Repo.tip, turnedAgain.path] at held
    exact held
  · rw [turnedAgain.view, turned.view, view]
    congr 1
    funext hash
    exact empty hash
  · rw [turnedAgain.handed, turned.handed, handed, unhanded]
    rfl

/-- Initialising a repository in an unused directory. -/
theorem init_fresh {branch : String} {world last : World} {genesis : Hash}
    (plain : ∀ part ∈ path, part ≠ "" ∧ part ≠ "." ∧ part ≠ "..")
    (formed : world.fs.WellFormed) (alive : world.deadline = none)
    (unused : Repo.Unused world.fs path) (below : Repo.Below branch)
    (roomy : Traced.Roomy store.cas.handed)
    (ran : init path branch message world = .ok (store, genesis) last)
    : store.Fresh path branch message genesis := by
  obtain ⟨repo, first, made, ran⟩ := bind_eq_ok.mp ran
  obtain ⟨cas, second, opened, ran⟩ := bind_eq_ok.mp ran
  obtain ⟨rfl, stands, lives, stillFormed, blank⟩ := (Repo.init_meets plain world).of_ok made
  have opens := (CasDisk.open_meets (stillFormed formed) path).of_ok opened
  obtain ⟨settled, empty, unreferred⟩ := assemble_settled stands (blank unused).1 (blank unused).2
    (opens.2 (lives alive)) opens.1
  rw [get_bind_apply] at ran
  cases started : initialise branch message
      (assemble { path, head := some "main" } cas second) with
  | error fault next =>
    rw [started] at ran
    cases ran
  | ok hash next =>
    rw [started] at ran
    cases ran
    exact initialise_fresh settled empty unreferred rfl rfl rfl below roomy started

-- Closing and opening

omit [Blake3] in
theorem direct_data (near : Direct (Repo.headPath path))
    : Direct (path ++ ["data"]) := by
  have inHead {part : String} (member : part ∈ path) : part ∈ Repo.headPath path :=
    List.mem_append_left _ member
  have data : ∀ part ∈ ["data"], (part ≠ "" ∧ part ≠ "." ∧ part ≠ "..")
      ∧ '\x00' ∉ part.toList ∧ Text.len part ≤ 255 := by decide +kernel
  have length : textLength (path ++ ["data"]) = textLength (Repo.headPath path) := by
    rw [textLength, textLength, Repo.headPath, List.map_append, List.map_append,
      List.sum_append, List.sum_append]
    congr 1
  refine ⟨fun part member => ?_, fun part member => ?_, fun part member => ?_,
    length ▸ near.total⟩
  all_goals rcases List.mem_append.mp member with inPath | inData
  · exact near.named part (inHead inPath)
  · exact (data part inData).1
  · exact near.readable part (inHead inPath)
  · exact (data part inData).2.1
  · exact near.short part (inHead inPath)
  · exact (data part inData).2.2

/-- What is read of HEAD depends on its file alone. -/
theorem headAt_of_looks {before after : DiskStore} (settled : before.Settled)
    (looks : Looks before after)
    : Repo.headAt after.world.fs before.repo.path = Repo.headAt before.world.fs before.repo.path := by
  have later := settled.looks looks
  have resolved := Repo.resolve_headPath settled.stands settled.near
  have resolvedLater := Repo.resolve_headPath later.stands later.near
  rw [looks.repo] at resolvedLater
  obtain ⟨node, file⟩ := looks.calls.toServes.elsewhere settled before.repo.aside_headPath
  have present : present after.world.fs (Repo.headPath before.repo.path)
      = present before.world.fs (Repo.headPath before.repo.path) := by
    simp only [present, resolved, resolvedLater, node]
  have text : textAt after.world.fs (Repo.headPath before.repo.path)
      = textAt before.world.fs (Repo.headPath before.repo.path) := by
    simp only [textAt, resolved, resolvedLater, node]
    cases found : before.world.fs.node (Repo.headPath before.repo.path) with
    | none => rfl
    | some kind =>
      cases kind with
      | dir => rfl
      | file inode =>
        have first := inodeAt_eq_some.mpr found
        have second := inodeAt_eq_some.mpr (node.trans found)
        have bytes : after.world.fs.content inode = before.world.fs.content inode := by
          simpa [fileAt, first, second] using file
        simp only [bytes]
  rw [Repo.headAt, Repo.headAt, present, text]

/-- Closing and opening a settled store gives the same objects and refs, and the HEAD that is in
its file.
-/
theorem reopen_spec (settled : store.Settled) {head : Option String}
    (read : Repo.headAt store.world.fs store.repo.path = .ok head)
    : ∃ next, reopen store = .ok () next ∧ next.Settled ∧ next.view = store.view
        ∧ next.repo = { path := store.repo.path, head }
        ∧ next.cas.handed = store.cas.handed
        ∧ next.commitCache = LruMap.new commitCacheCap
        ∧ (∀ path, next.world.fs.node path = store.world.fs.node path)
        ∧ ∀ path, CasDisk.Aside store.repo.path path
          → next.world.fs.fileAt path = store.world.fs.fileAt path := by
  obtain ⟨disk, flushed, attached, keeps, empty⟩ :=
    CasDisk.flush_returns settled.sane.1.toAttached settled.sane.2
  have ran : flushCas store = .ok () { store with cas := { store.cas with store := disk } } := by
    rw [flushCas, onCas, zoom, Traced.onStore_apply, flushed]
  have looks : Looks store { store with cas := { store.cas with store := disk } } := by
    have looks := flushCas_looks store
    rwa [ran] at looks
  have later := settled.looks looks
  have home : disk.cas.repoPath = store.repo.path := later.home
  have clean : disk.Clean := later.sane.1
  have opened := clean.open_eq empty
  rw [home] at opened
  have data : present disk.world.fs (store.repo.path ++ ["data"]) = true := by
    have dirs := clean.dirs
    rw [home] at dirs
    have resolved := resolve_of_dirs (direct_data settled.near)
      fun front above _ => dirs front above
    have found : disk.world.fs.node (store.repo.path ++ ["data"]) = some .dir :=
      dirs _ List.prefix_rfl
    simp [present, resolved, found]
  have headed : Repo.headAt disk.world.fs store.repo.path = .ok head :=
    (headAt_of_looks settled looks).trans read
  have repoOpened : Repo.open_ store.repo.path disk.world
      = .ok { path := store.repo.path, head } disk.world := by
    rw [Repo.open_, bind_of_ok (exists_apply _ disk.world), data]
    simp only [Bool.not_true, Bool.false_eq_true, if_false]
    rw [bind_apply, Repo.readHead_apply, headed]
    rfl
  have reread : open_ store.repo.path disk.world
      = .ok (assemble { path := store.repo.path, head } disk.renewed.cas disk.world)
          disk.world := by
    rw [open_, bind_of_ok repoOpened, bind_of_ok opened]
    rfl
  have view : disk.renewed.view = store.view :=
    (show disk.renewed.view = disk.view from rfl).trans (looks.objects.view settled.sane)
  refine ⟨{ assemble { path := store.repo.path, head } disk.renewed.cas disk.world with
    cas := { store := { world := disk.world, cas := disk.renewed.cas },
             handed := store.cas.handed } }, ?_, ?_, view, rfl, rfl, rfl,
    looks.objects.node settled.sane, ?_⟩
  · rw [reopen, bind_of_ok (observe_of_ok ran), get_bind_apply]
    rw [bind_apply, onWorld, zoom,
      show world { store with cas := { store.cas with store := disk } } = disk.world from rfl,
      reread]
    rfl
  · refine ⟨⟨clean.renewed, later.sane.2⟩, fun hash record held => ?_, home, ?_, ?_, settled.near⟩
    · exact settled.told hash record ((congrFun view hash).symm.trans held)
    · exact ⟨later.stands.plain, later.stands.dirs⟩
    · exact later.tidy
  · exact fun path aside => (looks.calls.toServes.elsewhere settled aside).2

omit [Blake3] in
/-- The relation of a step after which the history begins as before. -/
theorem history_frame : Frame fun before after : DiskStore => before.cas.handed <+: after.cas.handed :=
  ⟨fun _ => List.prefix_rfl, List.IsPrefix.trans⟩

theorem reopen_grows
    : Within (fun before after : DiskStore => before.cas.handed <+: after.cas.handed)
        reopen := by
  refine .bind history_frame
    (.observe fun store => (flushCas_looks store).calls.objects.grows) fun _ =>
    .get_bind fun store => ?_
  rw [bind_apply, onWorld, zoom]
  cases open_ store.repo.path store.world <;> exact List.prefix_rfl

end Epochs.DiskStore

namespace Epochs.DiskStore

open Lib Run World FileSystem

-- A repository just initialised, under the linked hash

def ofStarted (result : EStateM.Result (Fault EpochsError) World (DiskStore × Hash))
    (started : (Run.valueOf result).isSome = true) : DiskStore × Hash :=
  (Run.valueOf result).get started

theorem eq_ofStarted {result : EStateM.Result (Fault EpochsError) World (DiskStore × Hash)}
    (started : (valueOf result).isSome = true)
    : result = .ok ((ofStarted result started).1, (ofStarted result started).2)
        (stateOf result) :=
  eq_ok_of_valueOf (Option.some_get started).symm

attribute [local instance] Blake3.linked

theorem init_isSome
    : (valueOf (init ["r"] "main" "first" bare)).isSome = true := by
  decide +kernel

def sampleStart : DiskStore × Hash := ofStarted _ init_isSome

def sample : DiskStore := sampleStart.1

theorem init_sample
    : init ["r"] "main" "first" bare
      = .ok (sample, sampleStart.2) (stateOf (init ["r"] "main" "first" bare)) :=
  eq_ofStarted init_isSome

theorem unused_bare (path : Path) : Repo.Unused bare.fs path := by
  intro name _ rest
  simp [bare, node, empty]

theorem fresh_sample : sample.Fresh ["r"] "main" "first" sampleStart.2 :=
  init_fresh (by decide) wellFormed_empty rfl (unused_bare ["r"]) (by decide +kernel)
    (by decide +kernel) init_sample

end Epochs.DiskStore
