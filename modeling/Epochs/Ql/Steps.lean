import Epochs.Ql.Engine
import Epochs.Store.Commits

/-! What the steps of the executor keep. Queries reach the store through loaded commits and the
entries of trees, so a relation that composes and that these keep is kept by every query.
-/

namespace Epochs.Ql

open Lib Run DiskStore

namespace SchemaRegistry

def schemaAt (fs : FileSystem) (repoPath : Path) : Except ParseError SchemaRegistry :=
  let parts := repoPath ++ ["schema.state"]
  if World.present fs parts then
    match World.textAt fs parts with
    | .ok text => parse text
    | .error error => .error (ParseError.new s!"read schema.state: {ioText error}")
  else
    .ok new

/-- The schema is what its file describes, and nothing is changed. -/
theorem load_apply (repoPath : Path) (world : World)
    : load repoPath world = ofExcept (schemaAt world.fs repoPath) world := by
  have looked : mapErr (fun error => ParseError.new (ioText error))
      (World.exists_ (repoPath ++ ["schema.state"])) world
      = .ok (World.present world.fs (repoPath ++ ["schema.state"])) world := by
    rw [mapErr, World.exists_apply]
  rw [load, bind_of_ok looked, schemaAt]
  cases World.present world.fs (repoPath ++ ["schema.state"]) with
  | false => rfl
  | true =>
    simp only [Bool.not_true, Bool.false_eq_true, if_false, if_true]
    rw [bind_apply, mapErr, World.readToString_apply]
    cases World.textAt world.fs (repoPath ++ ["schema.state"]) <;> rfl

end SchemaRegistry

namespace Engine

-- Rows that commits make

/-- A row extended by a commit, if it does not bind the variable to another. -/
def agreeing (var : String) (bindings : Bindings) (bound : BoundCommit) : Option Bindings :=
  match AssocMap.lookup var bindings with
  | some existing =>
    if existing.hash ≠ bound.hash then none else some (AssocMap.insert var bound bindings)
  | none => some (AssocMap.insert var bound bindings)

def bindRows [Blake3] (fuel : Nat) (node : NodePattern) (grow : BoundCommit → Option Bindings)
    : (commits : List Hash) → (rows : List Bindings) → Exec (List Bindings)
  | [], rows => pure rows
  | hash :: rest, rows => do
    let commit ← lift (getCommit hash)
    let bound ← tryBindNode fuel node hash commit
    bindRows fuel node grow rest (rows ++ (bound.bind grow).toList)

section BindRows

variable [Blake3] (fuel : Nat) (node : NodePattern) (commits : List Hash) (rows : List Bindings)

/-- The first node is bound like any other, each time in a row of its own. -/
theorem bindFirst_eq
    : bindFirst fuel node commits rows
      = bindRows fuel node (fun bound => some [(node.var.getD "_0", bound)]) commits rows := by
  induction commits generalizing rows with
  | nil => rfl
  | cons hash rest ih =>
    rw [bindFirst, bindRows]
    congr 1
    funext commit
    congr 1
    funext bound
    cases bound <;> simp [ih]

theorem bindCandidates_eq (var : String) (bindings : Bindings)
    : bindCandidates fuel node var bindings commits rows
      = bindRows fuel node (agreeing var bindings) commits rows := by
  induction commits generalizing rows with
  | nil => rfl
  | cons hash rest ih =>
    rw [bindCandidates, bindRows]
    congr 1
    funext commit
    congr 1
    funext bound
    cases bound with
    | none => simp [ih]
    | some bound =>
      rw [Option.bind_some, agreeing]
      cases AssocMap.lookup var bindings with
      | none => simp [ih]
      | some existing => by_cases same : existing.hash = bound.hash <;> simp [same, ih]

end BindRows

-- Matching

section Kept

variable [Blake3] {kept : ∀ {ε α : Type}, Run ε DiskStore α → Prop} (closed : Closed kept)

include closed in
omit [Blake3] in
theorem projectRows_kept [HashSeed] (select : Option SelectClause) (rows : List Bindings)
    : kept (projectRows select rows) := by
  unfold projectRows
  split
  · exact closed.pure _
  · cases select with
    | none => exact closed.bind (closed.index _ _) fun _ => closed.pure _
    | some select => exact closed.bind (closed.ofExcept _) fun _ => closed.pure _

variable (loads : ∀ hash, kept (DiskStore.loadCommit hash)) {fuel : Nat}
  (trees : ∀ root, kept (DiskStore.hamtEntries fuel root)) {children : AssocMap Hash (List Hash)}

section Loads

include closed loads

theorem getCommit_kept (hash : Hash) : kept (lift (getCommit hash)) :=
  closed.mapErr (loads hash) _

theorem expandLoop_kept (toward : Bool) (start : Hash) (minHops maxHops fuel : Nat)
    (queue visited : List (Hash × Nat)) (results : List Hash)
    : kept (expandLoop toward children start minHops maxHops fuel queue visited results) := by
  fun_induction expandLoop toward children start minHops maxHops fuel queue visited results with
  | case1 => exact closed.pure _
  | case2 => exact closed.throw _
  | case3 fuel current depth queue visited earlier results beyond ih => exact ih
  | case4 fuel current depth queue visited earlier results within onward parents ih =>
    exact closed.bind (getCommit_kept closed loads current) fun _ =>
      closed.bind (closed.pure _) fun _ => ih _ _
  | case5 fuel current depth queue visited earlier results within onward children ih =>
    exact closed.bind (closed.pure _) fun _ => ih _ _

theorem pathLoop_kept (start goal : Hash) (fuel : Nat) (queue : List (Hash × List Hash))
    (visited : List Hash)
    : kept (pathLoop children start goal fuel queue visited) := by
  fun_induction pathLoop children start goal fuel queue visited with
  | case1 => exact closed.throw _
  | case2 => exact closed.throw _
  | case3 => exact closed.pure _
  | case4 fuel current path queue visited other ih =>
    exact closed.bind (getCommit_kept closed loads current) fun commit => ih _ _

/-- Following an edge only loads commits. -/
theorem expandEdge_kept [HashSeed] (edge : EdgePattern) (start : Hash)
    : kept (expandEdge fuel edge start children) :=
  closed.bind (expandLoop_kept closed loads _ _ _ _ _ _ _ _) fun _ => closed.pure _

end Loads

include closed trees

theorem bindCommit_kept (hash : Hash) (commit : Commit)
    : kept (bindCommit fuel hash commit) :=
  closed.bind (closed.mapErr (trees _) _) fun _ => closed.pure _

theorem tryBindNode_kept (node : NodePattern) (hash : Hash) (commit : Commit)
    : kept (tryBindNode fuel node hash commit) := by
  refine closed.bind (bindCommit_kept closed trees hash commit) fun bound =>
    closed.bind (closed.ofExcept _) fun fits => ?_
  split <;> exact closed.pure _

include loads

theorem bindRows_kept (node : NodePattern) (grow : BoundCommit → Option Bindings)
    (commits : List Hash) (rows : List Bindings)
    : kept (bindRows fuel node grow commits rows) := by
  induction commits generalizing rows with
  | nil => exact closed.pure _
  | cons hash rest ih =>
    exact closed.bind (getCommit_kept closed loads hash) fun commit =>
      closed.bind (tryBindNode_kept closed trees node hash commit) fun bound => ih _

theorem bindTraversal_kept (names : List String) (hashes : List Hash) (rows : List Bindings)
    : kept (bindTraversal fuel names hashes rows) := by
  induction hashes generalizing rows with
  | nil => exact closed.pure _
  | cons hash rest ih =>
    exact closed.bind (getCommit_kept closed loads hash) fun commit =>
      closed.bind (bindCommit_kept closed trees hash commit) fun _ => ih _

variable [HashSeed]

theorem extendRows_kept (edge : EdgePattern) (node : NodePattern) (prevVar var : String)
    (rows next : List Bindings)
    : kept (extendRows fuel edge node prevVar var children rows next) := by
  induction rows generalizing next with
  | nil => exact closed.pure _
  | cons bindings rest ih =>
    rw [extendRows]
    cases AssocMap.lookup prevVar bindings with
    | none => exact closed.throw _
    | some src =>
      refine closed.bind (expandEdge_kept closed loads edge src.hash) fun _ =>
        closed.bind ?_ ih
      rw [bindCandidates_eq]
      exact bindRows_kept closed loads trees node _ _ _

theorem matchSteps_kept (elements : List PatternElement) (budget i : Nat) (rows : List Bindings)
    : kept (matchSteps fuel elements children budget i rows) := by
  induction budget generalizing i rows with
  | zero => exact closed.pure _
  | succ budget ih =>
    rw [matchSteps]
    split
    · refine closed.bind (closed.index _ _) fun element => ?_
      cases element with
      | node node => exact closed.throw _
      | edge edge =>
        refine closed.bind (closed.index _ _) fun element => ?_
        cases element with
        | edge edge => exact closed.throw _
        | node node =>
          exact closed.bind (closed.index _ _) fun prev =>
            closed.bind (extendRows_kept closed loads trees edge node _ _ rows []) (ih _)
    · exact closed.pure _

theorem matchPattern_kept (pattern : Pattern) (commits : List Hash)
    : kept (matchPattern fuel pattern commits children) := by
  unfold matchPattern
  split
  · exact closed.pure _
  · refine closed.bind (closed.index _ _) fun element => ?_
    cases element with
    | edge edge => exact closed.throw _
    | node first =>
      dsimp only
      rw [bindFirst_eq]
      exact closed.bind (bindRows_kept closed loads trees first _ _ _) fun rows =>
        matchSteps_kept closed loads trees _ _ _ _

/-- Matching patterns only loads commits and lists documents. -/
theorem matchPatterns_kept (commits : List Hash) (patterns : List Pattern) (rows : List Bindings)
    : kept (matchPatterns fuel commits children patterns rows) := by
  induction patterns generalizing rows with
  | nil => exact closed.pure _
  | cons pattern rest ih =>
    exact closed.bind (matchPattern_kept closed loads trees pattern commits) fun _ => ih _

end Kept

-- Refs and schemas

variable {relation : DiskStore → DiskStore → Prop} (frame : Frame relation)
include frame

omit frame in
theorem lift_within {α : Type} {run : Run EpochsError DiskStore α}
    (within : Within relation run)
    : Within relation (lift run) :=
  within.mapErr _

omit frame in
theorem loadSchema_apply (store : DiskStore)
    : loadSchema store
      = ofExcept ((SchemaRegistry.schemaAt store.world.fs store.repo.path).mapError .parse)
          store := by
  rw [loadSchema, mapErr, zoom, SchemaRegistry.load_apply]
  cases SchemaRegistry.schemaAt store.world.fs store.repo.path <;> rfl

theorem loadSchema_within : Within relation loadSchema := by
  intro store
  rw [loadSchema_apply, stateOf_ofExcept]
  exact frame.refl store

theorem headBranch_within : Within relation headBranch := by
  refine .bind frame (lift_within (head_within frame)) fun head => ?_
  cases head with
  | some branch => exact .pure frame _
  | none => exact .throw frame _

theorem resolveTargetRef_within (target : TargetRef)
    : Within relation (resolveTargetRef target) := by
  cases target with
  | head => exact .bind frame (headBranch_within frame) fun _ => .pure frame _
  | branch name =>
    exact .bind frame (lift_within (getBranch_within frame name)) fun _ =>
      .pure frame _
  | commit hex => exact lift_within (resolveHashRef_within frame hex)
  | tag name => exact .throw frame _

theorem contextHash_within (context : Option ContextClause)
    : Within relation (contextHash context) := by
  unfold contextHash
  split <;> exact resolveTargetRef_within frame _

theorem commitParents_within (stmt : CommitStmt) (head : Branch)
    : Within relation (commitParents stmt head) := by
  unfold commitParents
  cases stmt.parents with
  | none => exact .pure frame _
  | some list => exact .mapM frame (resolveTargetRef_within frame) list

theorem mergeBranch_within (target : TargetRef) : Within relation (mergeBranch target) := by
  cases target with
  | head => exact .bind frame (headBranch_within frame) fun _ => .pure frame _
  | branch name => exact .pure frame _
  | commit hex => exact .throw frame _
  | tag name => exact .throw frame _

variable [Blake3] [HashSeed] {fuel : Nat}
  (loads : ∀ hash, Run.Within relation (DiskStore.loadCommit hash))
  (trees : ∀ root, Run.Within relation (DiskStore.hamtEntries fuel root))

-- Queries

section Queries

include loads

theorem shortestCommitPath_within (start goal : Hash)
    : Within relation (shortestCommitPath fuel start goal) :=
  .bind frame (lift_within (childrenMap_within frame loads fuel)) fun _ =>
    pathLoop_kept (.within frame) loads _ _ _ _ _

include trees

theorem execMatch_within (matchClause : MatchClause) (context : Hash)
    : Within relation (execMatch fuel matchClause context) :=
  .bind frame (lift_within (collectAncestors_within frame loads fuel context))
    fun _ => .bind frame (lift_within (reachableCommits_within frame loads fuel))
    fun _ => .bind frame (lift_within (childrenMap_within frame loads fuel))
    fun _ => matchPatterns_kept (.within frame) loads trees _ _ _

theorem traversalRows_within (traversal : TraversalClause)
    : Within relation (traversalRows fuel traversal) := by
  cases traversal with
  | mergeBase first second =>
    refine .bind frame (resolveTargetRef_within frame first) fun left =>
      .bind frame (resolveTargetRef_within frame second) fun right =>
        .bind frame (lift_within (mergeBase_within frame loads fuel left right))
          fun base => ?_
    cases base with
    | some hash => exact bindTraversal_kept (.within frame) loads trees _ _ _
    | none => exact .pure frame _
  | ancestors target =>
    exact .bind frame (resolveTargetRef_within frame target) fun start =>
      .bind frame (lift_within (collectAncestors_within frame loads fuel start))
        fun _ => bindTraversal_kept (.within frame) loads trees _ _ _
  | shortestPath first second =>
    exact .bind frame (resolveTargetRef_within frame first) fun left =>
      .bind frame (resolveTargetRef_within frame second) fun right =>
        .bind frame (shortestCommitPath_within frame loads left right) fun _ =>
          bindTraversal_kept (.within frame) loads trees _ _ _

theorem execTraversalOnly_within (query : QueryStatement) (traversal : TraversalClause)
    : Within relation (execTraversalOnly fuel query traversal) := by
  refine .bind frame (traversalRows_within frame loads trees traversal) fun rows => ?_
  cases query.select <;> exact .bind frame (.ofExcept frame _) fun _ => .pure frame _

theorem execContextQuery_within (query : QueryStatement) (context : Hash)
    : Within relation (execContextQuery fuel query context) := by
  refine .bind frame (getCommit_kept (.within frame) loads context) fun commit =>
    .bind frame (bindCommit_kept (.within frame) trees context commit) fun bound => ?_
  have shown (wanted : Bool) : Within relation
      (if !wanted then pure .empty
      else if query.select.isSome then projectRows query.select [[("_", bound)]]
      else pure
        { columns := ["hash", "message", "timestamp"]
          rows := [[.string context.toHex, .string bound.commit.message,
            .int (asI64 bound.commit.timestamp)]] } : Exec QueryResult) := by
    split
    · exact .pure frame _
    · split
      · exact projectRows_kept (.within frame) _ _
      · exact .pure frame _
  cases query.whereClause with
  | none => exact .bind frame (.pure frame _) shown
  | some expression => exact .bind frame (.ofExcept frame _) shown

theorem execMatchQuery_within (query : QueryStatement)
    : Within relation (execMatchQuery fuel query) := by
  refine .bind frame (contextHash_within frame _) fun context => ?_
  cases query.matchClause with
  | some matchClause =>
    exact .bind frame (execMatch_within frame loads trees matchClause context) fun _ =>
      projectRows_kept (.within frame) _ _
  | none => exact execContextQuery_within frame loads trees query context

/-- A query only loads commits and lists documents. -/
theorem execQuery_within (query : QueryStatement)
    : Within relation (execQuery fuel query) := by
  unfold execQuery
  split
  · exact execTraversalOnly_within frame loads trees _ _
  · exact execMatchQuery_within frame loads trees _

omit [HashSeed] in
theorem execDiff_within (stmt : DiffStmt) : Within relation (execDiff fuel stmt) :=
  .bind frame (resolveTargetRef_within frame _) fun left =>
    .bind frame (resolveTargetRef_within frame _) fun right =>
    .bind frame (getCommit_kept (.within frame) loads left) fun _ =>
    .bind frame (getCommit_kept (.within frame) loads right) fun _ =>
    .bind frame (lift_within (trees _)) fun _ =>
    .bind frame (lift_within (trees _)) fun _ => .pure frame _

end Queries

-- Indexes and commits

section Writes

variable (puts : ∀ root key value, Run.Within relation (DiskStore.indexPut fuel root key value))
  (removes : ∀ root key, Run.Within relation (DiskStore.indexRemove fuel root key))
include puts removes

omit [HashSeed] in
theorem updateIndex_within (oldDoc newDoc : Doc) (pk : Option Bytes) (indexRoots : IndexRoots)
    (idx : IndexDef)
    : Within relation (updateIndex fuel oldDoc newDoc pk indexRoots idx) := by
  refine .bind frame ?_ fun indexRoots => ?_
  · unfold removeStale
    split
    · split
      all_goals
        split
        · exact .pure frame _
        · split
          · exact .pure frame _
          · refine .bind frame (removes _ _) fun root => ?_
            cases root <;> exact .pure frame _
    · exact .pure frame _
  · unfold putPresent
    split
    · split
      · exact .pure frame _
      · exact .bind frame (puts _ _ _) fun _ => .pure frame _
    · exact .pure frame _

omit [HashSeed] in
theorem updateIndexesForCommit_within (schema : SchemaRegistry) (oldDoc newDoc : Doc)
    (prevIndexRoots : IndexRoots)
    : Within relation
        (updateIndexesForCommit fuel schema oldDoc newDoc prevIndexRoots) := by
  unfold updateIndexesForCommit
  split
  · exact .pure frame _
  · refine .bind frame ?_ fun _ => .pure frame _
    exact .foldlM frame (fun indexRoots coll => .foldlM frame
      (fun indexRoots idx => updateIndex_within frame puts removes _ _ _ indexRoots idx) _ _) _ _

end Writes

include trees in
omit [HashSeed] in
theorem docOf_within (root : Hash) : Within relation (docOf fuel root) := by
  unfold docOf
  split
  · exact .pure frame _
  · exact lift_within (.bind frame (trees root) fun _ => .pure frame _)

end Engine

namespace Engine

variable [Blake3]

/-- Preparing a commit stores no commit. -/
theorem prepareCommit_calls (fuel : Nat) (stmt : CommitStmt)
    : Within Calls (prepareCommit fuel stmt) := by
  have frame := calls_frame
  have loads (hash : Hash) : Within Calls (loadCommit hash) :=
    calls_of_looks (loadCommit_looks hash)
  have trees (root : Hash) : Within Calls (hamtEntries fuel root) :=
    calls_of_looks (hamtEntries_looks fuel root)
  exact .bind frame (headBranch_within frame) fun head =>
    .bind frame (commitParents_within frame stmt head) fun parents =>
    .bind frame (.index frame _ _) fun first =>
    .bind frame (getCommit_kept (.within frame) loads first) fun baseCommit =>
    .bind frame (.ofExcept frame _) fun ops =>
    .bind frame (lift_within (applyHamtOps_calls fuel _ _)) fun newRoot =>
    .bind frame (loadSchema_within frame) fun schema =>
    .bind frame (docOf_within frame trees _) fun oldDoc =>
    .bind frame (docOf_within frame trees _) fun newDoc =>
    .bind frame (lift_within (updateIndexesForCommit_within frame
      (indexPut_calls fuel) (indexRemove_calls fuel) _ _ _ _))
      fun indexRoots => .pure frame _

/-- A commit statement changes no ref before its commit is stored. -/
theorem commitObjects_serves (fuel : Nat) (stmt : CommitStmt)
    : Within Serves (commitObjects fuel stmt) := by
  have frame := serves_frame
  rw [commitObjects]
  exact .bind frame (fun store => (prepareCommit_calls fuel stmt store).toServes) fun prepared =>
    .bind frame (lift_within (commitWithIndexes_serves _ _ _ _)) fun newHash =>
    .pure frame _

/-- A commit that is not stored leaves the commits. -/
theorem commitObjects_halts (fuel : Nat) (stmt : CommitStmt)
    : Halts Calls (commitObjects fuel stmt) := by
  rw [commitObjects]
  refine .bind calls_frame (prepareCommit_calls fuel stmt) fun prepared => ?_
  exact ((commitWithIndexes_halts _ _ _ _).mapErr _).bind_pure _

end Engine
end Epochs.Ql
