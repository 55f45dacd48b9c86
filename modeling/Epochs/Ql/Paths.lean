import Epochs.Lib.Distances
import Epochs.Ql.Edges
import Epochs.Ql.Runs

/-! Shortest paths between commits. The parents of a commit and its children in the map of children
are its neighbours in the undirected graph of the commits that listed branches reach, provided that
all of these can be read; otherwise every search fails.
-/

namespace Epochs.Ql.Engine

open Lib DiskStore

variable [Blake3] {store : DiskStore}

-- The graph

def Linked (store : DiskStore) (first second : Hash) : Prop :=
  Listed store first ∧ Listed store second
  ∧ (second ∈ store.view.parents first ∨ first ∈ store.view.parents second)

def Connected (store : DiskStore) : Hash → Hash → Prop := Relation.EqvGen (Linked store)

/-- A list of commits from one to another, each linked with the one before. -/
structure Trail (store : DiskStore) (start goal : Hash) (path : List Hash) : Prop where
  head : path.head? = some start
  last : path.getLast? = some goal
  chain : path.IsChain (Linked store)

def neighbours (view : View) (children : AssocMap Hash (List Hash)) (hash : Hash) : List Hash :=
  view.parents hash ++ (AssocMap.lookup hash children).getD []

/-- A map of the children that listed branches reach. -/
def Charted (store : DiskStore) (children : AssocMap Hash (List Hash)) : Prop :=
  ∀ hash child, child ∈ (AssocMap.lookup hash children).getD []
    ↔ Listed store child ∧ hash ∈ store.view.parents child

variable {children : AssocMap Hash (List Hash)} {start goal : Hash}

theorem Linked.symm {first second : Hash} (linked : Linked store first second)
    : Linked store second first :=
  ⟨linked.2.1, linked.1, linked.2.2.symm⟩

theorem mem_neighbours (charted : Charted store children) {hash other : Hash}
    (listed : Listed store hash)
    : other ∈ neighbours store.view children hash ↔ Linked store hash other := by
  rw [neighbours, List.mem_append, charted, Linked]
  constructor
  · rintro (parent | ⟨child, edge⟩)
    · exact ⟨listed, listed.of_reaches (.single parent), .inl parent⟩
    · exact ⟨listed, child, .inr edge⟩
  · rintro ⟨-, also, parent | edge⟩
    · exact .inl parent
    · exact .inr ⟨also, edge⟩

theorem reaches_iff_connected (charted : Charted store children) (listed : Listed store start)
    : Worklist.Reaches (neighbours store.view children) start goal ↔ Connected store start goal := by
  have linked : Worklist.Reaches (neighbours store.view children) start goal
      ↔ Relation.ReflTransGen (Linked store) start goal := by
    constructor
    · intro reaches
      suffices both : Listed store goal ∧ Relation.ReflTransGen (Linked store) start goal from both.2
      induction reaches with
      | refl => exact ⟨listed, .refl⟩
      | tail _ edge ih =>
        have link := (mem_neighbours charted ih.1).mp edge
        exact ⟨link.2.1, ih.2.tail link⟩
    · intro reaches
      induction reaches with
      | refl => exact .refl
      | tail _ link ih => exact ih.tail ((mem_neighbours charted link.1).mpr link)
  rw [linked]
  clear linked listed
  have symmetric : Std.Symm (Linked store) := ⟨fun _ _ => Linked.symm⟩
  constructor
  · intro reaches
    induction reaches with
    | refl => exact .refl _
    | tail _ link ih => exact ih.trans _ _ _ (.rel _ _ link)
  · intro connected
    induction connected with
    | rel first second link => exact .single link
    | refl hash => exact .refl
    | symm first second _ ih => exact Relation.ReflTransGen.stdSymm.symm _ _ ih
    | trans first second third _ _ one two => exact one.trans two

theorem trail_iff (charted : Charted store children) (listed : Listed store start) {path : List Hash}
    : Trail store start goal path
      ↔ Worklist.IsPath (neighbours store.view children) start goal path := by
  have chains (path : List Hash) {first : Hash} (listed : Listed store first)
      : (first :: path).IsChain (Linked store)
        ↔ (first :: path).IsChain fun hash other => other ∈ neighbours store.view children hash := by
    induction path generalizing first with
    | nil => exact ⟨fun _ => .singleton _, fun _ => .singleton _⟩
    | cons second rest ih =>
      rw [List.isChain_cons_cons, List.isChain_cons_cons, mem_neighbours charted listed]
      exact and_congr_right fun link => ih link.2.1
  constructor
  · rintro ⟨head, last, chain⟩
    refine ⟨head, last, ?_⟩
    cases path with
    | nil => cases head
    | cons first rest =>
      cases head
      exact (chains rest listed).mp chain
  · rintro ⟨head, last, chain⟩
    refine ⟨head, last, ?_⟩
    cases path with
    | nil => cases head
    | cons first rest =>
      cases head
      exact (chains rest listed).mpr chain

-- The search

omit [Blake3] in
theorem enqueuePaths_eq (path : List Hash) (queue : List (Hash × List Hash))
    (visited hashes : List Hash)
    : enqueuePaths path queue visited hashes
      = (queue ++ (Worklist.unseen visited hashes).map fun hash => (hash, path ++ [hash]),
        visited ++ Worklist.unseen visited hashes) := by
  induction hashes generalizing queue visited with
  | nil => simp [enqueuePaths, Worklist.unseen]
  | cons hash rest ih =>
    rw [enqueuePaths, Worklist.unseen]
    split
    · exact ih queue visited
    · rw [ih]
      simp

def noPath (start goal : Hash) : ExecError :=
  .text s!"no path between {start.toHex} and {goal.toHex}"

/-- A search among commits that can be read is a search over their graph. -/
theorem pathLoop_eq (readable : store.Readable) (charted : Charted store children)
    (stored : ∀ hash, Listed store hash → ∃ commit, store.view.commit hash = some commit)
    (fuel : Nat) {queue : List (Hash × List Hash)} {visited : List Hash}
    (listed : ∀ item ∈ queue, Listed store item.1) {now : DiskStore} (looks : Looks store now)
    : ∃ next,
        pathLoop children start goal fuel queue visited now
          = match Worklist.route (neighbours store.view children) goal fuel queue visited with
            | some (some path) => .ok path next
            | some none => .error (.err (noPath start goal)) next
            | none => .error .fuel next := by
  induction fuel generalizing now queue visited with
  | zero => cases queue <;> exact ⟨now, rfl⟩
  | succ fuel ih =>
    cases queue with
    | nil => exact ⟨now, rfl⟩
    | cons item queue =>
      obtain ⟨current, path⟩ := item
      rw [pathLoop, Worklist.route]
      split
      · exact ⟨now, rfl⟩
      · have here := listed (current, path) List.mem_cons_self
        obtain ⟨commit, held⟩ := stored current here
        obtain ⟨middle, loaded, further⟩ := lift_getCommit (looks.readable readable)
          ((looks.view readable).symm ▸ held)
        have edges : neighbours store.view children current
            = commit.parents ++ (AssocMap.lookup current children).getD [] := by
          rw [neighbours, View.parents_of_commit held]
        rw [Run.bind_of_ok loaded]
        dsimp only
        rw [enqueuePaths_eq, ← edges]
        refine ih (fun item member => ?_) (looks_frame.trans looks further)
        rcases List.mem_append.mp member with old | added
        · exact listed item (List.mem_cons_of_mem _ old)
        · obtain ⟨hash, inNew, rfl⟩ := List.mem_map.mp added
          exact ((mem_neighbours charted here).mp (Worklist.mem_unseen.mp inNew).1).2.1

variable [HashSeed]

/-- What a search is to return: a shortest path without repetitions if the commits are connected, and
otherwise the error that there is none.
-/
def Shortest (store : DiskStore) (start goal : Hash)
    (outcome : EStateM.Result (Fault ExecError) DiskStore (List Hash)) : Prop :=
  (Connected store start goal
    ∧ ∃ path last, outcome = .ok path last
      ∧ Trail store start goal path
      ∧ path.Nodup
      ∧ ∀ other, Trail store start goal other → path.length ≤ other.length)
  ∨ (¬ Connected store start goal ∧ ∃ last, outcome = .error (.err (noPath start goal)) last)

theorem childrenMap_charted (settled : store.Settled) (coherent : store.Coherent) {fuel : Nat}
    {last : DiskStore} (mapped : childrenMap fuel store = .ok children last)
    : Charted store children :=
  fun _ _ => childrenMap_eq_ok settled coherent mapped

/-- With every commit at hand a search returns a shortest path or that there is none. -/
theorem shortest_of_stored (settled : store.Settled) (coherent : store.Coherent)
    (stored : ∀ hash, Listed store hash → ∃ commit, store.view.commit hash = some commit)
    (startListed : Listed store start) {fuel : Nat}
    (enough : store.budget + (1 + store.known.card) ≤ fuel)
    : Shortest store start goal (shortestCommitPath fuel start goal store) := by
  have readable : store.Readable := ⟨settled.sane, coherent⟩
  obtain ⟨children, middle, mapped, looks⟩ := childrenMap_returns settled coherent
    (fun name target held hash reaches => stored hash ⟨name, target, held, reaches⟩)
    (by omega : store.budget ≤ fuel)
  have charted := childrenMap_charted settled coherent mapped
  obtain ⟨universe_, known, inside, closed⟩ := exists_known_closed stored
    (fun hash listed other edge => ((mem_neighbours charted listed).mp edge).2.1) startListed
  have few := Finset.card_le_card known
  obtain ⟨result, routed⟩ := @Worklist.route_returns _ (neighbours store.view children) start _ fuel
    goal universe_ inside closed (by omega)
  obtain ⟨last, ran⟩ := @pathLoop_eq _ store children start goal readable charted stored fuel
    [(start, [start])] [start] (by simpa using startListed) middle looks
  rw [routed] at ran
  have lifted : lift (childrenMap fuel) store = .ok children middle := Run.mapErr_eq_ok.mpr mapped
  have whole : shortestCommitPath fuel start goal store
      = pathLoop children start goal fuel [(start, [start])] [start] middle := by
    rw [shortestCommitPath, Run.bind_of_ok lifted]
  obtain ⟨none, found⟩ := Worklist.route_spec routed
  rw [reaches_iff_connected charted startListed] at none
  rw [whole, ran]
  cases result with
  | none => exact .inr ⟨none.mp rfl, last, rfl⟩
  | some path =>
    obtain ⟨isPath, distinct, least⟩ := found path rfl
    refine .inl ⟨not_not.mp (mt none.mpr (by simp)), path, last, rfl,
      (trail_iff charted startListed).mpr isPath, distinct, fun other trail => ?_⟩
    exact least other ((trail_iff charted startListed).mp trail)

/-- From a commit that listed branches reach the search returns, given enough budget, a
shortest path or that there is none, exactly if all that listed branches reach are stored commits.
-/
theorem shortestCommitPath_iff (settled : store.Settled) (coherent : store.Coherent)
    (startListed : Listed store start)
    : (∃ budget, ∀ fuel, budget ≤ fuel
        → Shortest store start goal (shortestCommitPath fuel start goal store))
      ↔ ∀ hash, Listed store hash → ∃ commit, store.view.commit hash = some commit := by
  constructor
  · rintro ⟨budget, returns⟩ hash listed
    have mapped : ∃ children last, childrenMap budget store = .ok children last := by
      cases mapped : childrenMap budget store with
      | ok children last => exact ⟨children, last, rfl⟩
      | error fault last =>
        have failed : shortestCommitPath budget start goal store
            = .error (fault.map .store) last := by
          rw [shortestCommitPath]
          exact Run.bind_of_error (by rw [lift, Run.mapErr_apply, mapped])
        rcases returns budget le_rfl with ⟨-, path, _, found, -⟩ | ⟨-, _, none⟩
        · cases failed.symm.trans found
        · have same := failed.symm.trans none
          cases fault <;> cases same
    obtain ⟨children, last, mapped⟩ := mapped
    obtain ⟨found, middle, collected, -⟩ := Run.bind_eq_ok.mp mapped
    obtain ⟨commits, members⟩ := reachableCommits_eq_ok settled coherent collected
    exact commits hash ((members hash).mpr listed)
  · exact fun stored => ⟨store.budget + (1 + store.known.card), fun fuel enough =>
      shortest_of_stored settled coherent stored startListed enough⟩

end Epochs.Ql.Engine

namespace Epochs.Ql.Engine

open Lib DiskStore

attribute [local instance] Blake3.linked insertionOrder

/-- In a repository whose tips and parents are commits every search returns. -/
theorem shortestCommitPath_iff_branchOff
    : ∃ second last, branchOff sample = .ok second last
        ∧ ∃ budget, ∀ fuel, budget ≤ fuel
          → Shortest last sampleStart.2 second (shortestCommitPath fuel sampleStart.2 second last) := by
  obtain ⟨second, last, -, ran, orderly, -, -, -, -, -, main, -⟩ := branchOff_sample
  refine ⟨second, last, ran, (shortestCommitPath_iff orderly.settled orderly.coherent
    ⟨"main", sampleStart.2, main, .refl⟩).mpr ?_⟩
  rintro hash ⟨name, target, held, reaches⟩
  exact orderly.whole held hash reaches

def branchAtLeaf : Exec Hash := do
  let leaf ← lift (applyHamtOps 10 none [.put [1] [2]])
  lift (createBranch "leaf" leaf)
  pure leaf

def storeError {α : Type} (outcome : EStateM.Result (Fault ExecError) DiskStore α)
    : Option EpochsError :=
  match outcome with
  | .error (.err (.store error)) _ => some error
  | _ => none

/-- After that the first commit, which is the tip of a listed branch, has no path to itself. -/
theorem shortestCommitPath_fails
    : let last := Run.stateOf (branchAtLeaf sample)
      (Run.valueOf (branchAtLeaf sample)).isSome
      ∧ Listed last sampleStart.2
      ∧ ¬ Shortest last sampleStart.2 sampleStart.2
          (shortestCommitPath 20 sampleStart.2 sampleStart.2 last) := by
  intro last
  refine ⟨by decide +kernel, ⟨"main", sampleStart.2, by decide +kernel, .refl⟩, ?_⟩
  have failed : storeError (shortestCommitPath 20 sampleStart.2 sampleStart.2 last)
      = some (.codec "hash is not a commit") := by decide +kernel
  rintro (⟨-, path, end_, found, -⟩ | ⟨-, end_, none⟩)
  · rw [found] at failed
    cases failed
  · rw [none] at failed
    cases failed

end Epochs.Ql.Engine
