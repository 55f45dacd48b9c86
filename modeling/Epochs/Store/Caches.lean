import Epochs.Store.Sessions

/-! The cache of commits. It holds commits as they were made, the store what their encoding keeps
of them; the two agree for the commits whose lengths fit their fields.
-/

namespace Epochs.DiskStore

open Lib

variable [Blake3] {store next last : DiskStore} {hash : Hash}

/-- The ways in which a commit leaves the cache. -/
inductive Emptied (store : DiskStore) (hash : Hash) : DiskStore → Prop where
  | evicted {cache : LruMap Hash Commit} (gone : cache.get hash = none)
      (kept : ∀ other commit, cache.get other = some commit
        → store.commitCache.get other = some commit)
      : Emptied store hash { store with commitCache := cache }
  | configured {objectCap commitCap mmapSegments : Nat} {next : DiskStore}
      (ran : configureCaches objectCap commitCap mmapSegments store = .ok () next)
      : Emptied store hash next
  | reopened {next : DiskStore} (ran : reopen store = .ok () next) : Emptied store hash next

/-- A commit is read alike before and after it leaves the cache. -/
def Agrees (store : DiskStore) (hash : Hash) : Prop :=
  ∀ next, Emptied store hash next
    → Run.outcomeOf (getCommit hash next) = Run.outcomeOf (getCommit hash store)

/-- What is held stays readable when the cache is emptied. -/
theorem Emptied.readable (emptied : Emptied store hash next) (settled : store.Settled)
    (coherent : store.Coherent)
    : next.Readable ∧ next.view = store.view := by
  cases emptied with
  | evicted gone kept =>
    exact ⟨⟨settled.sane, fun other commit cached => coherent other commit (kept _ _ cached)⟩, rfl⟩
  | @configured objectCap commitCap mmapSegments _ ran =>
    obtain ⟨last, configured, renews⟩ :=
      configureCaches_renews settled objectCap commitCap mmapSegments
    cases configured.symm.trans ran
    exact ⟨⟨renews.settled.sane, renews.coherent⟩, renews.view⟩
  | reopened ran =>
    have renews := reopen_renews settled ran
    exact ⟨⟨renews.settled.sane, renews.coherent⟩, renews.view⟩

variable {commit : Commit}

theorem outcomeOf_getCommit (readable : store.Readable)
    (held : store.view.commit hash = some commit)
    : Run.outcomeOf (getCommit hash store) = .ok commit := by
  obtain ⟨next, loaded, -⟩ := loadCommit_of_held readable held
  rw [getCommit, loaded]
  rfl

/-- A stored commit is read alike, if the cache holds what is stored. -/
theorem agrees_of_held (settled : store.Settled) (coherent : store.Coherent)
    (held : store.view.commit hash = some commit)
    : store.Agrees hash := by
  intro next emptied
  obtain ⟨readable, view⟩ := emptied.readable settled coherent
  rw [outcomeOf_getCommit readable (view ▸ held),
    outcomeOf_getCommit ⟨settled.sane, coherent⟩ held]

/-- A commit that is cached and read alike is the decoding of a record. -/
theorem fits_of_agrees (settled : store.Settled)
    (cached : store.commitCache.get hash = some commit) (agrees : store.Agrees hash)
    : commit.Fits := by
  obtain ⟨next, configured, renews⟩ := configureCaches_renews settled 0 0 0
  have same := agrees next (.configured configured)
  have here : getCommit hash store = .ok commit store := by
    rw [getCommit, loadCommit, Run.get_bind_apply]
    rw [cached]
    rfl
  rw [here] at same
  cases read : getCommit hash next with
  | error reason final =>
    rw [read] at same
    cases same
  | ok found final =>
    rw [read] at same
    cases same
    have held := loadCommit_eq_ok ⟨renews.settled.sane, renews.coherent⟩ read
    obtain ⟨payload, -, decoded⟩ := View.commit_eq_some.mp held
    exact Commit.fits_of_decodePayload decoded

-- Sessions

/-- A call that changes no ref and whose commit fits. -/
def Committing (_ : DiskStore) (call : StoreCall) : Prop := call.sets = none ∧ call.Fits

/-- Commits that fit keep the cache coherent, and what is stored stays. -/
theorem Coherent.step {call : StoreCall} {reply : Option Hash} (coherent : store.Coherent)
    (settled : store.Settled) (committing : Committing store call)
    (effect : Effect store call reply next) (roomy : Traced.Roomy next.cas.handed)
    (unmixed : Traced.Unmixed next.cas.handed)
    : next.Coherent ∧ store.view.Extends next.view := by
  cases effect with
  | stored _ _ calls =>
    exact ⟨calls.coherent settled.sane roomy coherent, calls.objects.extends_ settled.sane roomy⟩
  | @made commit middle _ _ drafts dated calls _ records =>
    have earlier := roomy.of_grows records.objects.grows
    have between := settled.serves calls.toServes earlier
    have fits := (StoreCall.fits_iff drafts dated).mp committing.2
    have clear := records.clear between.sane between.told unmixed
    refine ⟨records.coherent clear fits (calls.coherent settled.sane earlier coherent), ?_⟩
    exact (calls.objects.extends_ settled.sane earlier).trans
      (records.objects.extends_ between.sane roomy)
  | moved _ sets _ => cases committing.1.symm.trans sets
  | @headed name _ _ _ ran =>
    have meets := (setHead_meets settled name).of_ok ran
    exact ⟨meets.1.coherent coherent, meets.1.view ▸ View.Extends.refl _⟩
  | renewed _ _ renews => exact ⟨renews.coherent, renews.view ▸ View.Extends.refl _⟩

theorem Session.coherent {calls : List StoreCall} (session : Session Committing store calls last)
    (roomy : Traced.Roomy last.cas.handed) (unmixed : Traced.Unmixed last.cas.handed)
    (settled : store.Settled) (coherent : store.Coherent)
    : last.Settled ∧ last.Coherent ∧ store.view.Extends last.view :=
  @Session.invariant _ store last Committing
    (fun _ after => after.Coherent ∧ store.view.Extends after.view) calls [] session roomy
    (fun _ _ committing _ _ sets => by cases committing.1.symm.trans sets)
    (fun _ _ _ _ _ holds settled _ committing effect roomy grows =>
      have kept := holds.1.step settled committing effect roomy (unmixed.of_prefix grows)
      ⟨kept.1, holds.2.trans kept.2⟩)
    settled ⟨coherent, View.Extends.refl _⟩

/-- In every session, a commit is read alike before and after it leaves the cache, from when it is
made on, exactly if its lengths fit the fields of its encoding. The other commits of the session
fit theirs.
-/
theorem commits_agree_iff {path : Path} {branch message : String} {genesis : Hash}
    {world opened : World} {start : DiskStore}
    (plain : ∀ part ∈ path, part ≠ "" ∧ part ≠ "." ∧ part ≠ "..")
    (formed : world.fs.WellFormed) (alive : world.deadline = none)
    (unused : Repo.Unused world.fs path) (below : Repo.Below branch)
    (initialised : init path branch message world = .ok (start, genesis) opened)
    {earlier : List StoreCall} (session : Session Committing start earlier store)
    {fuel : Nat} {call : StoreCall} (commits : call.drafts.isSome = true)
    (ran : call.run fuel store = .ok (some hash) next) (roomy : Traced.Roomy next.cas.handed)
    (unmixed : Traced.Unmixed next.cas.handed)
    : (∀ later last, Session Committing next later last → Traced.Roomy last.cas.handed
        → Traced.Unmixed last.cas.handed → last.Agrees hash)
      ↔ call.Fits := by
  have known := roomy.of_prefix ((StoreCall.grows _ _).of_ok ran)
  have fresh := init_fresh plain formed alive unused below (known.of_prefix session.grows)
    initialised
  have first : start.Coherent := by
    intro hash commit cached
    rw [fresh.cache] at cached
    cases cached
  obtain ⟨settled, coherent, -⟩ := session.coherent known
    (unmixed.of_prefix ((StoreCall.grows _ _).of_ok ran)) fresh.settled first
  have effect := run_effect settled ran roomy
  have sets : call.sets = none := by
    cases call <;> first | rfl | cases commits
  have after := effect.settled settled roomy fun name op changed => by
    cases sets.symm.trans changed
  cases effect with
  | stored drafts _ _ =>
    rw [drafts] at commits
    cases commits
  | @made commit middle _ _ drafts dated calls parents records =>
    have fits := StoreCall.fits_iff drafts dated
    constructor
    · intro agrees
      exact fits.mpr (fits_of_agrees after records.cached (agrees [] next rfl roomy unmixed))
    · intro fit later last session roomyLast unmixedLast
      have kept := coherent.step settled ⟨sets, fit⟩
        (.made sets drafts dated calls parents records) roomy unmixed
      obtain ⟨settledLast, coherentLast, more⟩ :=
        session.coherent roomyLast unmixedLast after kept.1
      have between := settled.serves calls.toServes (roomy.of_grows records.objects.grows)
      have held := records.commits (records.clear between.sane between.told unmixed)
        (fits.mp fit) commit.id
      rw [if_pos rfl] at held
      exact agrees_of_held settledLast coherentLast (more.commit held)

end Epochs.DiskStore

namespace Epochs.DiskStore

open Lib

attribute [local instance] Blake3.linked

def second : StoreCall := .commitWithRoot [sampleStart.2] Hash.zero "second"

theorem commits_agree_second
    : ∃ hash next, second.run 0 sample = .ok (some hash) next ∧ second.Fits
        ∧ next.Agrees hash := by
  have returned : (Run.valueOf (second.run 0 sample)).join.isSome = true := by decide +kernel
  obtain ⟨hash, value⟩ := Option.isSome_iff_exists.mp returned
  have ran : second.run 0 sample = .ok (some hash) (Run.stateOf (second.run 0 sample)) :=
    Run.eq_ok_of_valueOf (Option.join_eq_some_iff.mp value)
  have fits : second.Fits := by
    intro parents message indexRoots drafts
    simp only [second, StoreCall.drafts, Option.some.injEq, Prod.mk.injEq] at drafts
    obtain ⟨rfl, rfl, rfl⟩ := drafts
    exact ⟨by decide, by decide +kernel, by decide, by decide⟩
  have roomy : Traced.Roomy (Run.stateOf (second.run 0 sample)).cas.handed := by decide +kernel
  have unmixed : Traced.Unmixed (Run.stateOf (second.run 0 sample)).cas.handed := by
    decide +kernel
  have agrees := (commits_agree_iff (by decide) FileSystem.wellFormed_empty rfl
    (unused_bare ["r"]) (by decide +kernel) init_sample (show Session _ sample [] sample from rfl)
    rfl ran roomy unmixed).mpr fits
  exact ⟨hash, _, ran, fits, agrees [] _ rfl roomy unmixed⟩

/-- A commit with 256 parents is accepted, and is read differently once it left the cache. -/
theorem commits_disagree
    : ∃ hash next, commitWithRoot (List.replicate 256 sampleStart.2) Hash.zero "merge" sample
          = .ok hash next
        ∧ ¬ next.Agrees hash := by
  have sane := fresh_sample.settled.sane
  have roomy (now : Nat) : Traced.Roomy (sample.cas.handed ++ [(.commit,
      (Commit.new (List.replicate 256 sampleStart.2) Hash.zero now "merge").encodePayload)]) := by
    have first : Traced.Roomy sample.cas.handed := by decide +kernel
    intro object member
    rcases List.mem_append.mp member with old | new
    · exact first object old
    · rw [List.mem_singleton.mp new, Commit.length_encodePayload_new, List.length_replicate]
      decide +kernel
  obtain ⟨now, next, ran, records⟩ := commitWithRoot_returns sane (by decide +kernel)
    (fun parent member => by
      rw [(List.mem_replicate.mp member).2]
      decide +kernel) roomy
  refine ⟨_, next, ran, fun agrees => ?_⟩
  have settled := fresh_sample.settled.serves records.toServes (records.handed ▸ roomy now)
  have fits := (fits_of_agrees settled records.cached agrees).parents
  rw [Commit.new, List.length_replicate] at fits
  exact absurd fits (by decide)

end Epochs.DiskStore
