import Epochs.Ql.Housed
import Epochs.Ql.Schemas
import Epochs.Store.Histories

/-! Runs in which every ref and every parent is a commit. Targets given as hash texts may name
any stored object, and the fields of a commit are narrowed when it is written; apart from these
every statement keeps the graph of commits closed, so that walks over it never fail.
-/

namespace Epochs.Ql.Engine

open Lib DiskStore Run Traced

variable [Blake3] {store last : DiskStore} {name : String}

/-- A target that names a branch below the directory of refs, or a commit. -/
def Points (store : DiskStore) : TargetRef → Prop
  | .head => True
  | .branch name => Repo.Below name
  | .commit hex => ∀ hash, resolveHashRef hex store = .ok hash store
      → ∃ commit, store.view.commit hash = some commit
  | .tag _ => True

/-- Names stay below the directory of refs, targets are commits, and the fields of a commit fit. -/
def Proper (store : DiskStore) : Call → Prop
  | .statement (.version (.commit stmt)) =>
    (Utf8.encode (stmt.message.getD "commit")).length < 65536
    ∧ (∀ schema, schemaOf store = .ok schema → schema.Fits)
    ∧ ∀ targets, stmt.parents = some targets
      → targets.length < 256 ∧ ∀ target ∈ targets, Points store target
  | .statement (.version (.branch (.create name start))) =>
    Repo.Below name ∧ ∀ target, start = some target → Points store target
  | .statement (.version (.branch (.delete name))) => Repo.Below name
  | .statement (.version (.checkout (.branch name))) => Repo.Below name ∧ Repo.Trimmed name
  | .statement (.version (.merge stmt)) => ∀ name, stmt.into = .branch name → Repo.Below name
  | _ => True

theorem Proper.tame {call : Call} (proper : Proper store call) : Tame store call := by
  cases call with
  | reopen => trivial
  | statement stmt =>
    cases stmt with
    | query query => trivial
    | version stmt =>
      cases stmt with
      | commit stmt => trivial
      | diff stmt => trivial
      | merge stmt => exact proper
      | checkout target => cases target <;> exact proper
      | branch stmt =>
        cases stmt with
        | create name start => exact proper.1
        | delete name => exact proper

-- Targets

/-- A branch that is read is at a commit. -/
theorem commit_of_branchAt (orderly : store.Orderly) (below : Repo.Below name) {branch : Branch}
    (read : store.repo.branchAt store.world.fs name = .ok branch)
    : ∃ commit, store.view.commit branch.target = some commit :=
  orderly.tips _ _ (Repo.tip_of_branchAt orderly.settled.stands below read)

/-- A target that is resolved is a commit. -/
theorem commit_of_resolved (housed : Housed store name) (orderly : store.Orderly)
    {target : TargetRef} (points : Points store target) {hash : Hash}
    (resolved : resolveTargetRef target store = .ok hash store)
    : ∃ commit, store.view.commit hash = some commit := by
  cases target with
  | head =>
    obtain ⟨branch, middle, read, found⟩ := bind_eq_ok.mp resolved
    obtain ⟨rfl, current, there⟩ := headBranch_eq_ok read
    cases found
    have same : name = branch.name := Option.some.inj (housed.head.symm.trans current)
    exact commit_of_branchAt orderly (same ▸ housed.below) there
  | branch other =>
    obtain ⟨branch, middle, read, found⟩ := bind_eq_ok.mp resolved
    rw [lift, mapErr_eq_ok, getBranch_apply] at read
    cases there : store.repo.branchAt store.world.fs other with
    | error error =>
      rw [there] at read
      cases read
    | ok held =>
      rw [there] at read
      cases read
      cases found
      exact commit_of_branchAt orderly points there
  | commit hex => exact points hash (mapErr_eq_ok.mp resolved)
  | tag other => cases resolved

/-- So are the parents of a commit statement. -/
theorem commits_of_parents (housed : Housed store name) (orderly : store.Orderly)
    {stmt : CommitStmt} (proper : Proper store (.statement (.version (.commit stmt))))
    {head : Branch} (read : store.repo.branchAt store.world.fs head.name = .ok head)
    (current : store.repo.head = some head.name) {parents : List Hash}
    (resolved : commitParents stmt head store = .ok parents store)
    : parents.length < 256
      ∧ ∀ parent ∈ parents, ∃ commit, store.view.commit parent = some commit := by
  obtain ⟨-, -, points⟩ := proper
  unfold commitParents at resolved
  cases given : stmt.parents with
  | none =>
    rw [given] at resolved
    cases resolved
    have same : name = head.name := Option.some.inj (housed.head.symm.trans current)
    refine ⟨by simp, fun parent member => ?_⟩
    rw [List.mem_singleton.mp member]
    exact commit_of_branchAt orderly (same ▸ housed.below) read
  | some targets =>
    rw [given] at resolved
    obtain ⟨few, each⟩ := points targets given
    obtain ⟨length, from_⟩ := mapM_of_same
      (fun _ _ _ found => resolveTargetRef_same found) resolved
    refine ⟨length ▸ few, fun parent member => ?_⟩
    obtain ⟨target, inside, found⟩ := from_ parent member
    exact commit_of_resolved housed orderly (each target inside) found

-- Statements

variable {fuel : Nat}

/-- A commit that a statement stores has commits for parents, and its fields fit. -/
theorem commitObjects_orderly (housed : Housed store name) (orderly : store.Orderly)
    {stmt : CommitStmt} (proper : Proper store (.statement (.version (.commit stmt))))
    {head : Branch} {hash : Hash} (made : commitObjects fuel stmt store = .ok (head, hash) last)
    (roomy : Roomy last.cas.handed) (unmixed : Unmixed last.cas.handed)
    : last.Orderly ∧ ∃ commit, last.view.commit hash = some commit := by
  obtain @⟨parents, first, newRoot, base, ops, schema, oldDoc, newDoc, indexRoots, loaded, applied,
    viewed, reviewed, indexed, current, read, resolved, foremost, load, payload, apply, known, old,
    new, index, calls, further, write⟩ := commitObjects_eq_ok made
  have sane := orderly.settled.sane
  have grows : indexed.cas.handed <+: last.cas.handed := by
    have serves :=
      (commitWithIndexes_serves parents newRoot indexRoots (stmt.message.getD "commit")).of_ok write
    exact serves.objects.grows
  have roomyIndexed := roomy.of_prefix grows
  have roomyApplied := roomyIndexed.of_prefix further.objects.grows
  have both := calls_frame.trans calls further
  have orderlyIndexed := orderly.calls both roomyIndexed
  obtain ⟨-, now, small, -, rfl, records⟩ :=
    commitWithIndexes_eq_ok orderlyIndexed.settled.sane roomy write
  obtain ⟨few, commits⟩ := commits_of_parents housed orderly proper read current resolved
  have roots : indexRoots.size < 65536
      ∧ ∀ entry ∈ indexRoots.entries, (Utf8.encode entry.1).length < 65536 := by
    rcases updateIndexesForCommit_eq_ok index with same | names
    · obtain ⟨bytes, -, decoded⟩ :=
        View.commit_eq_some.mp (loadCommit_eq_ok orderly.readable load)
      have fits := Commit.fits_of_decodePayload decoded
      exact same ▸ ⟨fits.indexes, fits.names⟩
    · have seen := schemaOf_of_serves orderly.settled calls.toServes roomyApplied
      exact fits_of_names (proper.2.1 schema (seen.symm.trans known)) names
  have fits : (Commit.withIndexes parents newRoot now (stmt.message.getD "commit")
      indexRoots).Fits :=
    ⟨few, small, proper.1, roots.1, roots.2⟩
  have same := both.commits sane roomyIndexed
  have held := records.commits
    (records.clear orderlyIndexed.settled.sane orderlyIndexed.settled.told unmixed) fits
    (Commit.withIndexes parents newRoot now (stmt.message.getD "commit") indexRoots).id
  rw [if_pos rfl] at held
  refine ⟨orderlyIndexed.records records fits (fun parent member => ?_) roomy unmixed, _, held⟩
  rw [same]
  exact commits parent member

/-- A commit of which another is an ancestor is one. -/
theorem commit_of_isAncestor (orderly : store.Orderly) {ancestor descendant : Hash}
    (held : ∃ commit, store.view.commit ancestor = some commit)
    (forward : isAncestor fuel ancestor descendant store = .ok true last)
    : ∃ commit, store.view.commit descendant = some commit := by
  unfold isAncestor at forward
  split at forward
  · rename_i same
    exact same ▸ held
  · obtain ⟨found, middle, walked, -⟩ := bind_eq_ok.mp forward
    cases fuel with
    | zero => cases walked
    | succ fuel =>
      rw [collectAncestors, walkParents, if_neg (by simp)] at walked
      obtain ⟨commit, next, loaded, -⟩ := bind_eq_ok.mp walked
      exact ⟨commit, loadCommit_eq_ok orderly.readable loaded⟩

/-- The state in which a statement changes a ref is in order, and the ref will hold a commit. -/
theorem Moves.orderly {stmt : Statement} {other : String} {op : Repo.RefOp}
    {middle : DiskStore} (moves : Moves fuel store stmt other op middle)
    (housed : Housed store name) (orderly : store.Orderly)
    (proper : Proper store (.statement stmt)) (roomy : Roomy middle.cas.handed)
    (unmixed : Unmixed middle.cas.handed)
    : middle.Orderly
      ∧ ∀ target, op.target = some target → ∃ commit, middle.view.commit target = some commit := by
  cases moves with
  | @commit stmt head hash middle made =>
    obtain ⟨after, held⟩ := commitObjects_orderly housed orderly proper made roomy unmixed
    refine ⟨after, fun target same => ?_⟩
    cases same
    exact held
  | @create _ start target found =>
    refine ⟨orderly, fun target same => ?_⟩
    cases same
    refine commit_of_resolved housed orderly ?_ found
    cases start with
    | none => trivial
    | some given => exact proper.2 given rfl
  | delete => exact ⟨orderly, fun target same => by cases same⟩
  | @merge stmt source into other middle fromSource fromInto named forward =>
    have looks := (isAncestor_within looks_frame loadCommit_looks fuel into source).of_ok forward
    refine ⟨orderly.calls looks.calls roomy, fun target same => ?_⟩
    cases same
    have points : Points store stmt.into := by
      rcases mergeBranch_eq_ok named with given | ⟨given, -⟩
      · rw [given]
        exact proper other given
      · rw [given]
        trivial
    have view : middle.view = store.view := looks.objects.view orderly.settled.sane
    rw [view]
    exact commit_of_isAncestor orderly
      (commit_of_resolved housed orderly points fromInto) forward

/-- A proper call keeps the store in order. -/
theorem orderly_after [HashSeed] (housed : Housed store name) (orderly : store.Orderly)
    {call : Call} (fuel : Nat) (proper : Proper store call)
    (roomy : Roomy (call.after fuel store).cas.handed)
    (unmixed : Unmixed (call.after fuel store).cas.handed)
    : (call.after fuel store).Orderly := by
  cases call with
  | reopen =>
    obtain ⟨next, ran, after, view, handed, cache, repo, -, files⟩ := housed.reopen
    rw [Call.after, ran, stateOf_ok]
    refine ⟨after.settled, fun hash commit cached => ?_, view ▸ orderly.closed, ?_⟩
    · rw [cache] at cached
      cases cached
    · intro parts target held
      rw [tip, Repo.tip, repo, files _ (store.repo.aside_heads parts)] at held
      rw [view]
      exact orderly.tips parts target held
  | statement stmt =>
    have leaves := executeStatement_leaves fuel store stmt
    rw [Call.after] at roomy unmixed ⊢
    generalize stateOf (executeStatement fuel stmt store) = last at leaves roomy unmixed ⊢
    cases leaves with
    | early calls => exact orderly.calls calls roomy
    | refused moves => exact (moves.orderly housed orderly proper roomy unmixed).1
    | @moved other op middle moves =>
      rw [refOp_handed other op middle] at roomy unmixed
      obtain ⟨after, leads⟩ := moves.orderly housed orderly proper roomy unmixed
      exact after.refOp (moves.below housed proper.tame) op leads
    | @pointed other checkout => exact orderly.setHead other

-- Runs

/-- In every run of proper calls from a new repository whose objects are told apart by their
hashes and fit, the store is in order.
-/
theorem Reaches.orderly [HashSeed] {path : Path} {branch message : String} {genesis : Hash}
    {world opened : World} (plain : ∀ part ∈ path, part ≠ "" ∧ part ≠ "." ∧ part ≠ "..")
    (formed : world.fs.WellFormed) (alive : world.deadline = none)
    (unused : Repo.Unused world.fs path) (below : Repo.Below branch)
    (trimmed : Repo.Trimmed branch) (short : (Utf8.encode message).length < 65536)
    (initialised : DiskStore.init path branch message world = .ok (store, genesis) opened)
    (reaches : Reaches Proper store last) (roomy : Roomy last.cas.handed)
    (unmixed : Unmixed last.cas.handed)
    : ∃ name, Housed last name ∧ last.Orderly := by
  have kept : Unmixed last.cas.handed → ∃ name, Housed last name ∧ last.Orderly := by
    refine @Reaches.invariant _ _ _
      (fun store => Unmixed store.cas.handed → ∃ name, Housed store name ∧ store.Orderly)
      _ _ reaches roomy (fun roomy _ => ?_) ?_
    · have fresh := init_fresh plain formed alive unused below roomy initialised
      exact ⟨branch, housed_of_fresh fresh below trimmed, fresh_orderly fresh short⟩
    · intro fuel call store holds proper roomy unmixed
      obtain ⟨name, housed, orderly⟩ := holds (unmixed.of_prefix (call.grows fuel store))
      obtain ⟨next, after⟩ := housed.after fuel proper.tame roomy
      exact ⟨next, after, orderly_after housed orderly fuel proper roomy unmixed⟩
  exact kept unmixed

/-- In every state reached, each listed branch is at a stored commit, each parent of a commit
reached from one is a stored commit, and given enough budget the walks over the graph return.
-/
theorem refs_are_commits [HashSeed] {path : Path} {branch message : String} {genesis : Hash}
    {world opened : World} (plain : ∀ part ∈ path, part ≠ "" ∧ part ≠ "." ∧ part ≠ "..")
    (formed : world.fs.WellFormed) (alive : world.deadline = none)
    (unused : Repo.Unused world.fs path) (below : Repo.Below branch)
    (trimmed : Repo.Trimmed branch) (short : (Utf8.encode message).length < 65536)
    (initialised : DiskStore.init path branch message world = .ok (store, genesis) opened)
    (reaches : Reaches Proper store last) (roomy : Traced.Roomy last.cas.handed)
    (unmixed : Traced.Unmixed last.cas.handed)
    : ∃ names, listBranches last = .ok names last
        ∧ (∀ name ∈ names, ∃ target, getBranch name last = .ok { name, target } last
          ∧ ∀ hash, last.view.Reaches target hash
            → (∃ commit, last.view.commit hash = some commit
              ∧ ∀ parent ∈ commit.parents, ∃ found, last.view.commit parent = some found)
            ∧ ∀ fuel, last.budget ≤ fuel
              → ∃ found next, collectAncestors fuel hash last = .ok found next)
        ∧ ∀ fuel, last.budget ≤ fuel
          → ∃ found next, reachableCommits fuel last = .ok found next := by
  obtain ⟨-, -, orderly⟩ := reaches.orderly plain formed alive unused below trimmed short
    initialised roomy unmixed
  obtain ⟨names, listed, -, members⟩ := orderly.settled.listBranches
  refine ⟨names, listed, fun name member => ?_, fun fuel enough => ?_⟩
  · obtain ⟨target, held⟩ := (members name).mp member
    have read := (Repo.branchAt_of_tip orderly.settled.stands orderly.settled.tidy held).2
    refine ⟨target, by rw [getBranch_apply, read, Run.ofExcept_ok], fun hash reached => ?_⟩
    obtain ⟨commit, here⟩ := orderly.whole held hash reached
    refine ⟨⟨commit, here, orderly.closed hash commit here⟩, fun fuel enough => ?_⟩
    obtain ⟨found, next, ran, -⟩ := collectAncestors_spec orderly.readable
      ((orderly.whole held).of_reaches reached) enough
    exact ⟨found, next, ran⟩
  · obtain ⟨found, next, ran, -⟩ := orderly.reachableCommits enough
    exact ⟨found, next, ran⟩

end Epochs.Ql.Engine

namespace Epochs.Ql.Engine

open Lib DiskStore Run Traced

attribute [local instance] Blake3.linked insertionOrder

def committed : List Call :=
  [.statement (.version (.commit { payload := [("k", .string "v")], message := none, parents := none })),
    .statement (.version (.branch (.create "dev" (some .head))))]

theorem refs_are_commits_committed
    : ∃ names, listBranches (committed.foldl (Call.after 8) sample)
          = .ok names (committed.foldl (Call.after 8) sample)
        ∧ (∀ name ∈ names, ∃ target, getBranch name (committed.foldl (Call.after 8) sample)
            = .ok { name, target } (committed.foldl (Call.after 8) sample))
        ∧ ∃ found next, reachableCommits (committed.foldl (Call.after 8) sample).budget
            (committed.foldl (Call.after 8) sample) = .ok found next := by
  have proper : Along Proper 8 sample committed := by
    have schema : schemaOf sample = .ok SchemaRegistry.new := by decide +kernel
    refine ⟨⟨by decide +kernel, fun found read => ?_, fun targets given => by cases given⟩,
      ⟨by decide +kernel, fun target given => ?_⟩, trivial⟩
    · cases schema.symm.trans read
      exact ⟨by decide, by decide⟩
    · cases given
      trivial
  obtain ⟨names, listed, each, walks⟩ := refs_are_commits (by decide) FileSystem.wellFormed_empty rfl
    (unused_bare ["r"]) (by decide +kernel) (by decide +kernel) (by decide +kernel) init_sample
    (Along.reaches proper) (by decide +kernel) (by decide +kernel)
  refine ⟨names, listed, fun name member => ?_, walks _ le_rfl⟩
  obtain ⟨target, read, -⟩ := each name member
  exact ⟨target, read⟩

def leafOfDocument : Hash := Hash.ofBytes (HamtNode.leaf (Utf8.encode "k") (Utf8.encode "v")).encode

/-- A branch made at the hash of a leaf is listed, and no walk over the graph returns any more. -/
theorem refs_not_commits
    : let before := Run.stateOf (execute 8 "COMMIT \x7b k: \"v\" \x7d;" sample)
      let last := Run.stateOf (executeStatement 8
        (.version (.branch (.create "b" (some (.commit leafOfDocument.toHex))))) before)
      Run.valueOf (listBranches last) = some ["b", "main"]
      ∧ last.tip ["b"] = some leafOfDocument
      ∧ last.view.commit leafOfDocument = none
      ∧ Run.errorOf (reachableCommits 8 last) = some (.codec "hash is not a commit") := by
  decide +kernel

end Epochs.Ql.Engine
