import Epochs.Store.Commits
import Epochs.Store.Graph
import Epochs.Store.Listing
import Mathlib.Algebra.Order.BigOperators.Group.Finset

/-! Stores whose refs and parents are commits. In such a store the walks over the graph return,
given enough budget, and find what can be reached.
-/

namespace Epochs

open Lib Run

namespace View

variable {view other : View} {hash : Hash}

def Closed (view : View) : Prop :=
  ∀ hash commit, view.commit hash = some commit → ∀ parent ∈ commit.parents,
    ∃ found, view.commit parent = some found

theorem Closed.whole (closed : view.Closed) {commit : Commit}
    (held : view.commit hash = some commit)
    : view.Whole hash := by
  intro reached reaches
  induction reaches with
  | refl => exact ⟨commit, held⟩
  | tail _ edge ih =>
    obtain ⟨earlier, here⟩ := ih
    rw [parents_of_commit here] at edge
    exact closed _ earlier here _ edge

/-- A walk from whole histories returns when its budget covers the parents of all commits. -/
theorem walk_returns {hashes : Finset Hash}
    (covers : ∀ hash commit, view.commit hash = some commit → hash ∈ hashes)
    {fuel : Nat} {queue visited : List Hash} (whole : ∀ hash ∈ queue, view.Whole hash)
    (enough : queue.length + ∑ hash ∈ hashes, (view.parents hash).length ≤ fuel)
    : ∃ found, Worklist.walk view.parents fuel queue visited = some found := by
  classical
  have member {hash : Hash} (whole : view.Whole hash) : hash ∈ hashes.filter view.Whole := by
    obtain ⟨commit, held⟩ := whole.commit
    exact Finset.mem_filter.mpr ⟨covers hash commit held, whole⟩
  refine Worklist.walk_returns (fun hash queued => member (whole hash queued)) ?_ ?_
  · exact fun hash inside parent edge =>
      member ((Finset.mem_filter.mp inside).2.of_parent edge)
  · have fewer : ∑ hash ∈ hashes.filter view.Whole \ visited.toFinset, (view.parents hash).length
        ≤ ∑ hash ∈ hashes, (view.parents hash).length :=
      Finset.sum_le_sum_of_subset
        (Finset.sdiff_subset.trans (Finset.filter_subset view.Whole hashes))
    omega

end View

namespace DiskStore

variable [Blake3] {store before after : DiskStore}

-- Walks

/-- A budget for walks: one step to start and one for each parent of each stored commit. -/
def budget (store : DiskStore) : Nat :=
  1 + ∑ hash ∈ store.known, (store.view.parents hash).length

variable {fuel : Nat}

/-- The ancestors of a whole history are collected, each once. -/
theorem collectAncestors_spec (readable : store.Readable) {start : Hash}
    (whole : store.view.Whole start) (enough : store.budget ≤ fuel)
    : ∃ found next, collectAncestors fuel start store = .ok found next ∧ Looks store next
        ∧ found.Nodup ∧ ∀ hash, hash ∈ found ↔ store.view.Reaches start hash := by
  have single : ∀ hash ∈ [start], store.view.Whole hash := by simpa using whole
  obtain ⟨found, walked⟩ := @View.walk_returns store.view store.known
    (fun _ _ => mem_known_of_commit) fuel [start] [] single enough
  obtain ⟨next, looks, ran⟩ := @walkParents_eq _ store readable fuel [start] [] single
  rw [walked] at ran
  refine ⟨found, next, ran, looks, Worklist.nodup_walk walked List.nodup_nil, fun hash => ?_⟩
  rw [Worklist.mem_walk walked (by simp)]
  simp [View.Reaches]

variable {next : DiskStore}

/-- A walk from the tips of branches that returned has found what they reach, all of it commits. -/
theorem walkBranches_eq_ok (settled : store.Settled) (coherent : store.Coherent)
    {names : List String} (tips : ∀ name ∈ names, ∃ target, store.tip [name] = some target)
    {visited found : List Hash}
    (closed : ∀ hash ∈ visited, ∀ parent ∈ store.view.parents hash, parent ∈ visited)
    (ran : walkBranches fuel names visited store = .ok found next)
    : Looks store next
      ∧ (∀ hash ∈ found, hash ∉ visited → ∃ commit, store.view.commit hash = some commit)
      ∧ ∀ hash, hash ∈ found ↔ hash ∈ visited
        ∨ ∃ name ∈ names, ∃ target, store.tip [name] = some target
          ∧ store.view.Reaches target hash := by
  induction names generalizing store visited with
  | nil =>
    cases ran
    exact ⟨looks_frame.refl _, fun hash member unseen => absurd member unseen, by simp⟩
  | cons name rest ih =>
    obtain ⟨target, held⟩ := tips name List.mem_cons_self
    have readable : store.Readable := ⟨settled.sane, coherent⟩
    have read := (Repo.branchAt_of_tip settled.stands settled.tidy held).2
    rw [walkBranches, bind_apply, getBranch_apply, read, ofExcept_ok] at ran
    obtain ⟨walked, middle, first, onward⟩ := bind_eq_ok.mp ran
    obtain ⟨steps, commits⟩ := walkParents_eq_ok readable first
    have looks :=
      (walkParents_within looks_frame loadCommit_looks fuel [target] visited).of_ok first
    have view := looks.view readable
    have same (name : String) : middle.tip [name] = store.tip [name] :=
      looks.calls.toServes.tip settled [name]
    have members (hash : Hash) := @Worklist.mem_walk _ store.view.parents _ fuel [target] visited
      walked steps closed hash
    have covered := (Worklist.walk_covers steps fun hash old parent edge =>
      .inl (closed hash old parent edge)).2
    obtain ⟨further, others, all⟩ := @ih middle (settled.looks looks)
      (looks.coherent settled.sane coherent)
      (fun name member => same name ▸ tips name (List.mem_cons_of_mem _ member))
      walked (by rwa [view]) onward
    rw [view] at others
    refine ⟨looks_frame.trans looks further, fun hash member unseen => ?_, fun hash => ?_⟩
    · by_cases here : hash ∈ walked
      · exact commits hash here unseen
      · exact others hash member here
    · have started : (∃ start ∈ [target], Worklist.Reaches store.view.parents start hash)
          ↔ ∃ target, store.tip [name] = some target ∧ store.view.Reaches target hash := by
        simp [held, View.Reaches]
      rw [all, members, started, view]
      simp only [same, List.mem_cons, exists_eq_or_imp, or_assoc]

/-- A walk from the tips of branches returns, and visits each commit once. -/
theorem walkBranches_returns (settled : store.Settled) (coherent : store.Coherent)
    {hashes : Finset Hash}
    (covers : ∀ hash commit, store.view.commit hash = some commit → hash ∈ hashes) {fuel : Nat}
    (enough : 1 + ∑ hash ∈ hashes, (store.view.parents hash).length ≤ fuel)
    {names : List String}
    (whole : ∀ name ∈ names, ∃ target, store.tip [name] = some target ∧ store.view.Whole target)
    {visited : List Hash} (distinct : visited.Nodup)
    : ∃ found next, walkBranches fuel names visited store = .ok found next ∧ found.Nodup := by
  induction names generalizing store visited with
  | nil => exact ⟨visited, store, rfl, distinct⟩
  | cons name rest ih =>
    obtain ⟨target, held, wholeTarget⟩ := whole name List.mem_cons_self
    have readable : store.Readable := ⟨settled.sane, coherent⟩
    have single : ∀ hash ∈ [target], store.view.Whole hash := by simpa using wholeTarget
    obtain ⟨walked, steps⟩ := @View.walk_returns store.view hashes covers fuel [target] visited
      single enough
    obtain ⟨middle, looks, ran⟩ := @walkParents_eq _ store readable fuel [target] visited single
    rw [steps] at ran
    have view := looks.view readable
    obtain ⟨found, next, later, each⟩ := @ih middle (settled.looks looks)
      (looks.coherent settled.sane coherent) (by rwa [view]) (by rwa [view])
      (by
        intro name member
        rw [looks.calls.toServes.tip settled [name], view]
        exact whole name (List.mem_cons_of_mem _ member))
      walked (Worklist.nodup_walk steps distinct)
    refine ⟨found, next, ?_, each⟩
    have read := (Repo.branchAt_of_tip settled.stands settled.tidy held).2
    rw [walkBranches, bind_apply, getBranch_apply, read, ofExcept_ok]
    dsimp only
    rw [bind_of_ok ran, later]

-- Stores in order

/-- A change of a ref that fails leaves every tip. -/
theorem tip_of_failed (settled : store.Settled) {name : String} (below : Repo.Below name)
    {op : Repo.RefOp} {fault : Fault EpochsError}
    (failed : refOp name op store = .error fault next) (parts : Path)
    : next.tip parts = store.tip parts := by
  have meets := op.run_meets settled.stands below
  rw [refOp_apply] at failed
  cases ran : op.run store.repo name store.world with
  | ok value world =>
    rw [ran] at failed
    cases failed
  | error reason world =>
    rw [ran] at failed meets
    cases failed
    rcases meets.2 with ⟨-, -, same⟩ | killed
    · exact congrArg (Option.bind · Repo.tipOf) (same _)
    · exact absurd settled.sane.2 killed.2

/-- The listed branches are those with a ref directly in the directory of refs. -/
theorem Settled.listBranches (settled : store.Settled)
    : ∃ names, DiskStore.listBranches store = .ok names store ∧ names.Nodup
        ∧ ∀ name, name ∈ names ↔ ∃ target, store.tip [name] = some target := by
  obtain ⟨names, listed, distinct, members⟩ := Repo.branchesAt_spec settled.formed settled.stands
  refine ⟨names, by rw [listBranches_apply, listed, ofExcept_ok], distinct, fun name => ?_⟩
  rw [members]
  constructor
  · rintro ⟨bytes, file⟩
    obtain ⟨-, -, target, read⟩ := settled.tidy [name] bytes file
    exact ⟨target, by rw [tip, Repo.tip, file, Option.bind_some, read]⟩
  · rintro ⟨target, held⟩
    obtain ⟨bytes, file, -⟩ := Option.bind_eq_some_iff.mp held
    exact ⟨bytes, file⟩

/-- Reachable commits that were collected are what the listed branches reach. -/
theorem reachableCommits_eq_ok (settled : store.Settled) (coherent : store.Coherent)
    {found : List Hash} (ran : reachableCommits fuel store = .ok found next)
    : (∀ hash ∈ found, ∃ commit, store.view.commit hash = some commit)
      ∧ ∀ hash, hash ∈ found
        ↔ ∃ name target, store.tip [name] = some target ∧ store.view.Reaches target hash := by
  obtain ⟨names, listed, -, members⟩ := settled.listBranches
  rw [reachableCommits, bind_of_ok listed] at ran
  obtain ⟨-, commits, all⟩ := walkBranches_eq_ok settled coherent
    (fun name member => (members name).mp member) (by simp) ran
  refine ⟨fun hash member => commits hash member (by simp), fun hash => ?_⟩
  rw [all]
  simp only [List.not_mem_nil, false_or, members]
  constructor
  · rintro ⟨name, -, target, held, reaches⟩
    exact ⟨name, target, held, reaches⟩
  · rintro ⟨name, target, held, reaches⟩
    exact ⟨name, ⟨target, held⟩, target, held, reaches⟩

/-- From listed branches with whole histories what they reach is found, each commit once. -/
theorem reachableCommits_returns_of (settled : store.Settled) (coherent : store.Coherent)
    (whole : ∀ name target, store.tip [name] = some target → store.view.Whole target)
    {hashes : Finset Hash}
    (covers : ∀ hash commit, store.view.commit hash = some commit → hash ∈ hashes)
    (enough : 1 + ∑ hash ∈ hashes, (store.view.parents hash).length ≤ fuel)
    : ∃ found next, reachableCommits fuel store = .ok found next ∧ Looks store next
        ∧ found.Nodup
        ∧ ∀ hash, hash ∈ found
          ↔ ∃ name target, store.tip [name] = some target ∧ store.view.Reaches target hash := by
  obtain ⟨names, listed, -, members⟩ := settled.listBranches
  obtain ⟨found, next, ran, distinct⟩ := @walkBranches_returns _ store settled coherent hashes
    covers fuel enough names
    (fun name member => by
      obtain ⟨target, held⟩ := (members name).mp member
      exact ⟨target, held, whole name target held⟩)
    [] List.nodup_nil
  have collected : reachableCommits fuel store = .ok found next := by
    rw [reachableCommits, bind_of_ok listed, ran]
  have looks := (reachableCommits_within looks_frame loadCommit_looks fuel).of_ok collected
  exact ⟨found, next, collected, looks, distinct, (reachableCommits_eq_ok settled coherent collected).2⟩

theorem reachableCommits_returns (settled : store.Settled) (coherent : store.Coherent)
    (whole : ∀ name target, store.tip [name] = some target → store.view.Whole target)
    (enough : store.budget ≤ fuel)
    : ∃ found next, reachableCommits fuel store = .ok found next ∧ Looks store next
        ∧ found.Nodup
        ∧ ∀ hash, hash ∈ found
          ↔ ∃ name target, store.tip [name] = some target ∧ store.view.Reaches target hash :=
  reachableCommits_returns_of settled coherent whole (fun _ _ => mem_known_of_commit) enough

/-- The children of commits are recorded. -/
theorem childrenOf_returns (readable : store.Readable) {commits : List Hash}
    (held : ∀ hash ∈ commits, ∃ commit, store.view.commit hash = some commit)
    (map : AssocMap Hash (List Hash))
    : ∃ children next, childrenOf commits map store = .ok children next ∧ Looks store next := by
  induction commits generalizing store map with
  | nil => exact ⟨map, store, rfl, looks_frame.refl store⟩
  | cons hash rest ih =>
    obtain ⟨commit, here⟩ := held hash List.mem_cons_self
    obtain ⟨middle, loaded, looks⟩ := loadCommit_of_held readable here
    obtain ⟨children, next, ran, further⟩ := @ih middle (looks.readable readable)
      (fun other member => looks.view readable ▸ held other (List.mem_cons_of_mem _ member))
      (addChild hash map commit.parents)
    exact ⟨children, next, by rw [childrenOf, bind_of_ok loaded, ran],
      looks_frame.trans looks further⟩

theorem childrenMap_returns_of [HashSeed] (settled : store.Settled) (coherent : store.Coherent)
    (whole : ∀ name target, store.tip [name] = some target → store.view.Whole target)
    {hashes : Finset Hash}
    (covers : ∀ hash commit, store.view.commit hash = some commit → hash ∈ hashes)
    (enough : 1 + ∑ hash ∈ hashes, (store.view.parents hash).length ≤ fuel)
    : ∃ children next, childrenMap fuel store = .ok children next ∧ Looks store next := by
  have readable : store.Readable := ⟨settled.sane, coherent⟩
  obtain ⟨found, middle, collected, looks, -, -⟩ :=
    reachableCommits_returns_of settled coherent whole covers enough
  obtain ⟨commits, -⟩ := reachableCommits_eq_ok settled coherent collected
  obtain ⟨children, next, ran, further⟩ := @childrenOf_returns _ middle (looks.readable readable)
    (HashSeed.order found)
    (fun hash member => by
      rw [looks.view readable]
      exact commits hash ((HashSeed.perm found).mem_iff.mp member)) []
  exact ⟨children, next, by rw [childrenMap, bind_of_ok collected, ran],
    looks_frame.trans looks further⟩

theorem childrenMap_returns [HashSeed] (settled : store.Settled) (coherent : store.Coherent)
    (whole : ∀ name target, store.tip [name] = some target → store.view.Whole target)
    (enough : store.budget ≤ fuel)
    : ∃ children next, childrenMap fuel store = .ok children next ∧ Looks store next :=
  childrenMap_returns_of settled coherent whole (fun _ _ => mem_known_of_commit) enough

/-- The recorded children are the commits that the listed branches reach. -/
theorem childrenMap_eq_ok [HashSeed] (settled : store.Settled) (coherent : store.Coherent)
    {children : AssocMap Hash (List Hash)}
    (ran : childrenMap fuel store = .ok children next) {child hash : Hash}
    : child ∈ (AssocMap.lookup hash children).getD []
      ↔ (∃ name target, store.tip [name] = some target ∧ store.view.Reaches target child)
        ∧ hash ∈ store.view.parents child := by
  obtain ⟨commits, middle, collected, onward⟩ := bind_eq_ok.mp ran
  have looks := (reachableCommits_within looks_frame loadCommit_looks fuel).of_ok collected
  have readable : store.Readable := ⟨settled.sane, coherent⟩
  rw [childrenOf_eq_ok (looks.readable readable) onward, looks.view readable,
    (HashSeed.perm commits).mem_iff, (reachableCommits_eq_ok settled coherent collected).2]
  simp

/-- A settled store whose refs, and the parents of whose commits, are commits. -/
structure Orderly (store : DiskStore) : Prop where
  settled : store.Settled
  coherent : store.Coherent
  closed : store.view.Closed
  tips : ∀ parts target, store.tip parts = some target
    → ∃ commit, store.view.commit target = some commit

namespace Orderly

theorem readable (orderly : store.Orderly) : store.Readable :=
  ⟨orderly.settled.sane, orderly.coherent⟩

theorem whole (orderly : store.Orderly) {parts : Path} {target : Hash}
    (held : store.tip parts = some target)
    : store.view.Whole target := by
  obtain ⟨commit, here⟩ := orderly.tips parts target held
  exact orderly.closed.whole here

/-- What can be reached from the listed branches is found, each commit once. -/
theorem reachableCommits (orderly : store.Orderly) (enough : store.budget ≤ fuel)
    : ∃ found next, DiskStore.reachableCommits fuel store = .ok found next ∧ Looks store next
        ∧ found.Nodup
        ∧ ∀ hash, hash ∈ found
          ↔ ∃ name target, store.tip [name] = some target ∧ store.view.Reaches target hash :=
  reachableCommits_returns orderly.settled orderly.coherent (fun _ _ => orderly.whole) enough

-- Steps

theorem looks (orderly : before.Orderly) (looks : Looks before after) : after.Orderly where
  settled := orderly.settled.looks looks
  coherent := looks.coherent orderly.settled.sane orderly.coherent
  closed := by
    rw [looks.view orderly.readable]
    exact orderly.closed
  tips parts target held := by
    rw [looks.calls.toServes.tip orderly.settled parts] at held
    rw [looks.view orderly.readable]
    exact orderly.tips parts target held

theorem serves (orderly : before.Orderly) (serves : Serves before after)
    (roomy : Traced.Roomy after.cas.handed) (coherent : after.Coherent)
    (closed : after.view.Closed)
    : after.Orderly where
  settled := orderly.settled.serves serves roomy
  coherent := coherent
  closed := closed
  tips parts target held := by
    rw [serves.tip orderly.settled] at held
    obtain ⟨commit, here⟩ := orderly.tips parts target held
    have more : before.view.Extends after.view :=
      serves.objects.extends_ orderly.settled.sane roomy
    exact ⟨commit, more.commit here⟩

/-- Storing other objects than commits keeps the order. -/
theorem calls (orderly : before.Orderly) (calls : Calls before after)
    (roomy : Traced.Roomy after.cas.handed)
    : after.Orderly := by
  have sane := orderly.settled.sane
  refine orderly.serves calls.toServes roomy (calls.coherent sane roomy orderly.coherent) ?_
  unfold View.Closed
  rw [calls.commits sane roomy]
  exact orderly.closed

/-- So does storing a commit whose parents are commits. -/
theorem records (orderly : before.Orderly) {commit : Commit} (records : Records commit before after)
    (fits : commit.Fits)
    (parents : ∀ parent ∈ commit.parents, ∃ found, before.view.commit parent = some found)
    (roomy : Traced.Roomy after.cas.handed) (unmixed : Traced.Unmixed after.cas.handed)
    : after.Orderly := by
  have sane := orderly.settled.sane
  have clear := records.clear sane orderly.settled.told unmixed
  have more : before.view.Extends after.view := records.objects.extends_ sane roomy
  refine orderly.serves records.toServes roomy
    (records.coherent clear fits orderly.coherent) fun hash found held parent member => ?_
  have stored : ∃ found, before.view.commit parent = some found := by
    rw [records.commits clear fits] at held
    split at held
    · cases held
      exact parents parent member
    · exact orderly.closed hash found held parent member
  obtain ⟨earlier, here⟩ := stored
  exact ⟨earlier, more.commit here⟩

theorem turns (orderly : before.Orderly) (turns : Turns before after)
    (tips : ∀ parts target, after.tip parts = some target
      → ∃ commit, before.view.commit target = some commit)
    : after.Orderly where
  settled := turns.settled
  coherent := turns.coherent orderly.coherent
  closed := turns.view ▸ orderly.closed
  tips := turns.view ▸ tips

/-- So does a change of a ref to a commit, and one that fails. -/
theorem refOp (orderly : before.Orderly) {name : String} (below : Repo.Below name)
    (op : Repo.RefOp)
    (leads : ∀ target, op.target = some target → ∃ commit, before.view.commit target = some commit)
    : (stateOf (refOp name op before)).Orderly := by
  have settled := orderly.settled
  refine orderly.turns (refOp_turns settled below op) fun parts target held => ?_
  cases ran : DiskStore.refOp name op before with
  | ok value next =>
    rw [ran, stateOf_ok, tip_of_refOp settled below op ran] at held
    split at held
    · exact leads target held
    · exact orderly.tips parts target held
  | error fault next =>
    rw [ran, stateOf_error, tip_of_failed settled below ran] at held
    exact orderly.tips parts target held

theorem setHead (orderly : before.Orderly) (name : String)
    : (stateOf (setHead name before)).Orderly := by
  have meets := setHead_meets orderly.settled name
  cases ran : DiskStore.setHead name before with
  | error reason next =>
    rw [ran] at meets
    exact meets.2 ▸ orderly
  | ok value next =>
    rw [ran] at meets
    obtain ⟨turns, -, -, alters, -⟩ := meets
    rw [stateOf_ok]
    refine orderly.turns turns fun parts target held => orderly.tips parts target ?_
    rwa [tip, Repo.tip, turns.path, alters.fileAt orderly.settled.formed
      (by simp [Repo.heads, Repo.headPath])] at held

end Orderly

variable {path : Path} {branch message : String} {genesis : Hash}

/-- A new repository has one commit, without parents and with an empty document. -/
theorem fresh_commit
    (fresh : store.Fresh path branch message genesis)
    (short : (Utf8.encode message).length < 65536) {hash : Hash} {commit : Commit}
    (held : store.view.commit hash = some commit)
    : ∃ now, commit = Commit.new [] Hash.zero now message := by
  obtain ⟨now, small, -, view, -⟩ := fresh.stored
  have fits : (Commit.new [] Hash.zero now message).Fits :=
    ⟨by simp [Commit.new], small, short, by simp [Commit.new, SortedMap.size, SortedMap.empty],
      by simp [Commit.new, SortedMap.empty]⟩
  rw [view, View.commit_eq_some] at held
  obtain ⟨payload, here, decoded⟩ := held
  rcases View.add_cases here with nothing | ⟨-, record⟩
  · cases nothing
  · cases record
    rw [Commit.decodePayload_encodePayload fits] at decoded
    cases decoded
    exact ⟨now, rfl⟩

theorem fresh_parents
    (fresh : store.Fresh path branch message genesis)
    (short : (Utf8.encode message).length < 65536) (hash : Hash)
    : store.view.parents hash = [] := by
  cases held : store.view.commit hash with
  | none => rw [View.parents, held]; rfl
  | some commit =>
    obtain ⟨now, rfl⟩ := fresh_commit fresh short held
    rw [View.parents_of_commit held]
    rfl

theorem fresh_orderly
    (fresh : store.Fresh path branch message genesis)
    (short : (Utf8.encode message).length < 65536)
    : store.Orderly := by
  obtain ⟨now, small, -, view, -⟩ := fresh.stored
  have fits : (Commit.new [] Hash.zero now message).Fits :=
    ⟨by simp [Commit.new], small, short, by simp [Commit.new, SortedMap.size, SortedMap.empty],
      by simp [Commit.new, SortedMap.empty]⟩
  have stored : store.view.commit genesis = some (Commit.new [] Hash.zero now message) := by
    rw [view]
    exact View.commit_of_held (View.add_self fun _ held => by cases held) fits
  refine ⟨fresh.settled, fun hash commit cached => ?_, fun hash commit held parent member => ?_,
    fun parts target held => ?_⟩
  · rw [fresh.cache] at cached
    cases cached
  · rw [← View.parents_of_commit held, fresh_parents fresh short] at member
    cases member
  · rw [fresh.tips] at held
    split at held
    · cases held
      exact ⟨_, stored⟩
    · cases held

end DiskStore
end Epochs

namespace Epochs.DiskStore

open Lib Run

attribute [local instance] Blake3.linked

theorem orderly_sample : sample.Orderly := fresh_orderly fresh_sample (by decide +kernel)

theorem whole_sample : sample.view.Whole sampleStart.2 :=
  orderly_sample.whole (fresh_sample.tips (Repo.refParts "main") ▸ if_pos rfl)

def branchWith (root : Hash) : Run EpochsError DiskStore Hash := do
  let second ← commitWithRoot [sampleStart.2] root "second"
  refOp "topic" (.create second)
  pure second

def branchOff : Run EpochsError DiskStore Hash := branchWith Hash.zero

/-- A repository with two commits, the second with some root, and a branch at each. -/
structure Branched (root second : Hash) (last : DiskStore) : Prop where
  orderly : last.Orderly
  apart : second ≠ sampleStart.2
  held : ∃ commit, last.view.commit second = some commit ∧ commit.parents = [sampleStart.2]
    ∧ commit.rootHamt = root
  first : ∃ first, last.view.commit sampleStart.2 = some first ∧ first.rootHamt = Hash.zero
  tips : ∀ parts, last.tip parts
    = if parts = ["topic"] then some second
      else if parts = ["main"] then some sampleStart.2 else none
  others : ∀ hash, hash ≠ second → last.view.parents hash = []
  nothing : ∀ hash, hash ≠ second → hash ≠ sampleStart.2 → last.view hash = none

section Branched

variable {root second hash : Hash} {last : DiskStore}

theorem Branched.eq_of_reaches_first (branched : Branched root second last)
    (reaches : last.view.Reaches sampleStart.2 hash)
    : hash = sampleStart.2 := by
  rcases Relation.ReflTransGen.cases_head reaches with same | ⟨parent, edge, -⟩
  · exact same.symm
  · rw [branched.others _ branched.apart.symm] at edge
    cases edge

theorem Branched.edge (branched : Branched root second last)
    : last.view.parents second = [sampleStart.2] := by
  obtain ⟨commit, held, parents, -⟩ := branched.held
  rw [View.parents_of_commit held, parents]

theorem Branched.eq_of_reaches_second (branched : Branched root second last)
    (reaches : last.view.Reaches second hash)
    : hash = second ∨ hash = sampleStart.2 := by
  rcases Relation.ReflTransGen.cases_head reaches with same | ⟨parent, edge, further⟩
  · exact .inl same.symm
  · rw [branched.edge] at edge
    rw [List.mem_singleton.mp edge] at further
    exact .inr (branched.eq_of_reaches_first further)

end Branched

theorem branched_of_branchWith {root second : Hash} {last : DiskStore}
    (ran : branchWith root sample = .ok second last) (apart : second ≠ sampleStart.2)
    (roomy : Traced.Roomy last.cas.handed) (unmixed : Traced.Unmixed last.cas.handed)
    : Branched root second last := by
  obtain ⟨_, middle, made, turned⟩ := bind_eq_ok.mp ran
  obtain ⟨_, _, turned, ended⟩ := bind_eq_ok.mp turned
  cases ended
  have handed := (refOp_handed "topic" (.create second)).of_ok turned
  rw [handed] at roomy unmixed
  have sane := orderly_sample.settled.sane
  obtain ⟨first, held⟩ := whole_sample.commit
  obtain ⟨-, now, dated, -, rfl, records⟩ := commitWithRoot_eq_ok sane roomy made
  have fits : (Commit.new [sampleStart.2] root now "second").Fits :=
    ⟨by simp [Commit.new], dated, (by decide +kernel : (Utf8.encode "second").length < 65536),
      by simp [Commit.new, SortedMap.size, SortedMap.empty], by simp [Commit.new, SortedMap.empty]⟩
  have committed := orderly_sample.records records fits
    (fun parent member => ⟨first, List.mem_singleton.mp member ▸ held⟩) roomy unmixed
  have commits := records.commits (records.clear sane orderly_sample.settled.told unmixed) fits
  have ownHeld := (commits _).trans (if_pos rfl)
  have below : Repo.Below "topic" := by decide
  have orderly := committed.refOp below (.create _) fun target same => by
    cases same
    exact ⟨_, ownHeld⟩
  have turns := refOp_turns committed.settled below (.create (Commit.new [sampleStart.2] root
    now "second").id)
  have tips := tip_of_refOp committed.settled below _ turned
  rw [turned, stateOf_ok] at orderly turns
  refine ⟨orderly, apart, ⟨Commit.new [sampleStart.2] root now "second", ?_, rfl, rfl⟩, ⟨first, ?_, ?_⟩,
    fun parts => ?_, fun hash other => ?_, fun hash other other' => ?_⟩
  · rw [turns.view]
    exact ownHeld
  · rw [turns.view, commits, if_neg apart.symm]
    exact held
  · obtain ⟨now, rfl⟩ := fresh_commit fresh_sample (by decide +kernel) held
    rfl
  · rw [tips, records.toServes.tip orderly_sample.settled, fresh_sample.tips]
    rfl
  · rw [turns.view, View.parents, commits, if_neg other]
    exact fresh_parents fresh_sample (by decide +kernel) hash
  · obtain ⟨now, -, same, view, -⟩ := fresh_sample.stored
    rw [turns.view, records.view, View.add, if_neg other, view, View.add, if_neg other']
    rfl

theorem branchOff_branched
    : ∃ second last, branchOff sample = .ok second last ∧ Branched Hash.zero second last := by
  obtain ⟨second, last, ran⟩ := exists_eq_ok
    (by decide +kernel : (valueOf (branchOff sample)).isSome = true)
  have apart : valueOf (branchOff sample) ≠ some sampleStart.2 := by decide +kernel
  have roomy : Traced.Roomy (stateOf (branchOff sample)).cas.handed := by decide +kernel
  have unmixed : Traced.Unmixed (stateOf (branchOff sample)).cas.handed := by decide +kernel
  rw [ran] at apart roomy unmixed
  exact ⟨second, last, ran, branched_of_branchWith ran (fun same => apart (congrArg some same)) roomy
    unmixed⟩

/-- A repository with two commits, and a branch at each. -/
theorem branchOff_sample
    : ∃ second last commit,
        branchOff sample = .ok second last
        ∧ last.Orderly
        ∧ second ≠ sampleStart.2
        ∧ last.view.commit second = some commit
        ∧ commit.parents = [sampleStart.2]
        ∧ (∃ first, last.view.commit sampleStart.2 = some first)
        ∧ last.tip ["topic"] = some second
        ∧ last.tip ["main"] = some sampleStart.2
        ∧ ∀ hash, hash ≠ second → last.view.parents hash = [] := by
  obtain ⟨second, last, ran, branched⟩ := branchOff_branched
  obtain ⟨commit, held, parents, -⟩ := branched.held
  obtain ⟨first, firstHeld, -⟩ := branched.first
  refine ⟨second, last, commit, ran, branched.orderly, branched.apart, held, parents,
    ⟨first, firstHeld⟩, ?_, ?_, branched.others⟩
  · rw [branched.tips, if_pos rfl]
  · rw [branched.tips, if_neg (by decide), if_pos rfl]

end Epochs.DiskStore
