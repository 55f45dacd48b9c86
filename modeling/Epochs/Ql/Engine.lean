import Epochs.Ql.PathIndex
import Epochs.Store.Dag

/-! The executor of the query language over a store. Hash sets and hash maps are lists in
insertion order; where the program iterates over one, it does so in the order of `HashSeed`.
-/

namespace Epochs.Ql

open Lib

/-- Errors of the executor. Those of the layers below are displayed as they are. -/
inductive ExecError where
  | parse (error : ParseError)
  | store (error : EpochsError)
  | text (message : String)
  | notLiteral (expression : Expression)

abbrev Exec (α : Type) := Run ExecError DiskStore α

structure BoundCommit where
  hash : Hash
  commit : Commit
  state : Doc

abbrev Bindings := AssocMap String BoundCommit

namespace Engine

def lift {α : Type} (run : Run EpochsError DiskStore α) : Exec α := Run.mapErr .store run

def fail {α : Type} (message : String) : Exec α := Run.fail (.text message)

-- Values of expressions

def asI64 (value : Nat) : Int := if value < 2 ^ 63 then value else (value : Int) - 2 ^ 64

def propertyOf (bound : BoundCommit) (key : String) : Value :=
  if key = "hash" then .string bound.hash.toHex
  else if key = "message" then .string bound.commit.message
  else if key = "timestamp" then .int (asI64 bound.commit.timestamp)
  else if key = "root_hamt" then .string bound.commit.rootHamt.toHex
  else (bound.state.get key).getD .null

def boundTo (bindings : Bindings) (name : String) : Except ExecError BoundCommit :=
  match AssocMap.lookup name bindings with
  | some bound => .ok bound
  | none => .error (.text s!"unbound variable '{name}'")

def binaryValue (op : BinaryOp) (left right : Value) : Value :=
  match op with
  | .eq => .bool (left.valuesEq right)
  | .neq => .bool (!left.valuesEq right)
  | .and => .bool (left.isTruthy && right.isTruthy)
  | .or => .bool (left.isTruthy || right.isTruthy)

def fieldOf (base : Value) (property : String) : Value :=
  match base with
  | .map entries => (AssocMap.lookup property entries).getD .null
  | _ => .null

mutual

def evalExpr (bindings : Bindings) : Expression → Except ExecError Value
  | .null => .ok .null
  | .bool value => .ok (.bool value)
  | .int value => .ok (.int value)
  | .float value => .ok (.float value)
  | .string value => .ok (.string value)
  | .map entries => do
    let values ← evalEntries bindings entries
    .ok (.map values)
  | .var name => do
    let bound ← boundTo bindings name
    .ok (.string bound.hash.toHex)
  | .propertyAccess (.var name) property => do
    let bound ← boundTo bindings name
    .ok (propertyOf bound property)
  | .propertyAccess object property => do
    let base ← evalExpr bindings object
    .ok (fieldOf base property)
  | .binary left op right => do
    let first ← evalExpr bindings left
    let second ← evalExpr bindings right
    .ok (binaryValue op first second)

def evalEntries (bindings : Bindings)
    : List (String × Expression) → Except ExecError (List (String × Value))
  | [] => .ok []
  | (name, expression) :: rest => do
    let value ← evalExpr bindings expression
    let values ← evalEntries bindings rest
    .ok ((name, value) :: values)

end

def evalBool (bindings : Bindings) (expression : Expression) : Except ExecError Bool := do
  let value ← evalExpr bindings expression
  .ok value.isTruthy

mutual

def evalLiteralExpr : Expression → Except ExecError Value
  | .null => .ok .null
  | .bool value => .ok (.bool value)
  | .int value => .ok (.int value)
  | .float value => .ok (.float value)
  | .string value => .ok (.string value)
  | .map entries => do
    let values ← evalLiteralEntries entries
    .ok (.map values)
  | other => .error (.notLiteral other)

def evalLiteralEntries : List (String × Expression) → Except ExecError (List (String × Value))
  | [] => .ok []
  | (name, expression) :: rest => do
    let value ← evalLiteralExpr expression
    let values ← evalLiteralEntries rest
    .ok ((name, value) :: values)

end

def nestedKey (front key : String) : String :=
  if front = "" then key else s!"{front}.{key}"

mutual

/-- The writes of a payload value: nested maps are flattened into dotted keys. -/
def payloadOps (front : String) : Value → Except ExecError (List HamtOp)
  | .map entries => payloadEntries front entries
  | scalar =>
    match scalar.toStorageBytes with
    | .ok bytes => .ok [.put (Utf8.encode front) bytes]
    | .error message => .error (.text message)

def payloadEntries (front : String) : List (String × Value) → Except ExecError (List HamtOp)
  | [] => .ok []
  | (key, value) :: rest => do
    let first ← payloadOps (nestedKey front key) value
    let others ← payloadEntries front rest
    .ok (first ++ others)

end

def stmtOps : List (String × Expression) → Except ExecError (List HamtOp)
  | [] => .ok []
  | (key, expression) :: rest => do
    let value ← evalLiteralExpr expression
    let first ← payloadOps key value
    let others ← stmtOps rest
    .ok (first ++ others)

def expressionLabel (expression : Expression) (idx : Nat) : String :=
  match expression with
  | .var name => name
  | .propertyAccess _ property => property
  | _ => s!"col{idx}"

def columnsOf (items : List ProjectionItem) : List String :=
  items.zipIdx.map fun (item, idx) => item.alias_.getD (expressionLabel item.expression idx)

def hopBounds (multiplier : Option HopMultiplier) (edgeType : EdgeType) : Nat × Nat :=
  match multiplier with
  | none =>
    match edgeType with
    | .parent | .child => (1, 1)
    | .ancestor | .descendant => (1, 64)
  | some .any => (1, 64)
  | some (.exact hops) => (hops, hops)
  | some (.range min max) => (min.getD 1, max.getD 64)

/-- The variable of a node, or the name made from its position. -/
def patternNodeVar (element : PatternElement) (idx : Nat) : String :=
  match element with
  | .node node => node.var.getD s!"_{idx}"
  | .edge _ => s!"_{idx}"

section Blake3

variable [Blake3] [HashSeed] (fuel : Nat)

-- Targets

def headBranch : Exec Branch := do
  match ← lift DiskStore.head with
  | some branch => pure branch
  | none => fail "HEAD not set"

/-- The hash a target stands for. A hash text may name an object of any type. -/
def resolveTargetRef : TargetRef → Exec Hash
  | .head => do
    let head ← headBranch
    pure head.target
  | .branch name => do
    let branch ← lift (DiskStore.getBranch name)
    pure branch.target
  | .commit hex => lift (DiskStore.resolveHashRef hex)
  | .tag name => fail s!"tags are not implemented yet (TAG {name})"

def contextHash (context : Option ContextClause) : Exec Hash :=
  match context with
  | some clause => resolveTargetRef clause.target
  | none => resolveTargetRef .head

-- Patterns

def bindCommit (hash : Hash) (commit : Commit) : Exec BoundCommit := do
  let entries ← lift (DiskStore.hamtEntries fuel commit.rootHamt)
  pure { hash, commit, state := flattenEntries entries }

def matchesProperties (bound : BoundCommit)
    : List (String × Expression) → Except ExecError Bool
  | [] => .ok true
  | (key, expected) :: rest => do
    let wanted ← evalLiteralExpr expected
    if (propertyOf bound key).eq wanted then matchesProperties bound rest else .ok false

def tryBindNode (node : NodePattern) (hash : Hash) (commit : Commit)
    : Exec (Option BoundCommit) := do
  let bound ← bindCommit fuel hash commit
  if ← Run.ofExcept (matchesProperties bound node.properties) then
    pure (some bound)
  else
    pure none

def expandLoop (towardRoot : Bool) (children : AssocMap Hash (List Hash)) (start : Hash)
    (minHops maxHops : Nat)
    : (fuel : Nat) → (queue visited : List (Hash × Nat)) → (results : List Hash)
      → Exec (List Hash)
  | _, [], _, results => pure results
  | 0, _ :: _, _, _ => throw .fuel
  | fuel + 1, (current, depth) :: queue, visited, results => do
    let results :=
      if minHops ≤ depth ∧ depth ≤ maxHops ∧ current ≠ start ∧ current ∉ results then
        results ++ [current]
      else results
    if maxHops ≤ depth then
      expandLoop towardRoot children start minHops maxHops fuel queue visited results
    else do
      let nexts ← if towardRoot then do
          let commit ← lift (DiskStore.getCommit current)
          pure commit.parents
        else
          pure ((AssocMap.lookup current children).getD [])
      let (queue, visited) := enqueue queue visited (depth + 1) nexts
      expandLoop towardRoot children start minHops maxHops fuel queue visited results
where
  /-- Append the hashes not seen at a depth before to the queue, and mark them. -/
  enqueue (queue visited : List (Hash × Nat)) (depth : Nat)
      : List Hash → List (Hash × Nat) × List (Hash × Nat)
    | [] => (queue, visited)
    | hash :: rest =>
      if (hash, depth) ∈ visited then enqueue queue visited depth rest
      else enqueue (queue ++ [(hash, depth)]) (visited ++ [(hash, depth)]) depth rest

/-- Whether an edge leads towards the root of the history. The direction is not looked at. -/
def towardRoot (edgeType : EdgeType) : Bool :=
  match edgeType with
  | .parent | .ancestor => true
  | .child | .descendant => false

def expandEdge (edge : EdgePattern) (start : Hash) (children : AssocMap Hash (List Hash))
    : Exec (List Hash) := do
  let (minHops, maxHops) := hopBounds edge.multiplier edge.edgeType
  let results ← expandLoop (towardRoot edge.edgeType) children start minHops maxHops fuel
    [(start, 0)] [(start, 0)] []
  pure (HashSeed.order results)

def bindFirst (node : NodePattern)
    : (commits : List Hash) → (rows : List Bindings) → Exec (List Bindings)
  | [], rows => pure rows
  | hash :: rest, rows => do
    let commit ← lift (DiskStore.getCommit hash)
    match ← tryBindNode fuel node hash commit with
    | some bound => bindFirst node rest (rows ++ [[(node.var.getD "_0", bound)]])
    | none => bindFirst node rest rows

def bindCandidates (node : NodePattern) (var : String) (bindings : Bindings)
    : (candidates : List Hash) → (rows : List Bindings) → Exec (List Bindings)
  | [], rows => pure rows
  | hash :: rest, rows => do
    let commit ← lift (DiskStore.getCommit hash)
    match ← tryBindNode fuel node hash commit with
    | none => bindCandidates node var bindings rest rows
    | some bound =>
      match AssocMap.lookup var bindings with
      | some existing =>
        if existing.hash ≠ bound.hash then
          bindCandidates node var bindings rest rows
        else
          bindCandidates node var bindings rest
            (rows ++ [AssocMap.insert var bound bindings])
      | none =>
        bindCandidates node var bindings rest (rows ++ [AssocMap.insert var bound bindings])

def extendRows (edge : EdgePattern) (node : NodePattern) (prevVar var : String)
    (children : AssocMap Hash (List Hash))
    : (rows next : List Bindings) → Exec (List Bindings)
  | [], next => pure next
  | bindings :: rest, next =>
    match AssocMap.lookup prevVar bindings with
    | none => fail s!"unbound pattern variable '{prevVar}'"
    | some src => do
      let candidates ← expandEdge fuel edge src.hash children
      let next ← bindCandidates fuel node var bindings candidates next
      extendRows edge node prevVar var children rest next

def matchSteps (elements : List PatternElement) (children : AssocMap Hash (List Hash))
    : (budget i : Nat) → (rows : List Bindings) → Exec (List Bindings)
  | 0, _, rows => pure rows
  | budget + 1, i, rows =>
    if i + 1 < elements.length then do
      match ← Run.index elements i with
      | .node _ => fail "expected edge in pattern"
      | .edge edge => do
        match ← Run.index elements (i + 1) with
        | .edge _ => fail "expected node after edge"
        | .node node => do
          let prev ← Run.index elements (i - 1)
          let rows ← extendRows fuel edge node (patternNodeVar prev (i - 1))
            (node.var.getD s!"_{i + 1}") children rows []
          matchSteps elements children budget (i + 2) rows
    else
      pure rows

def matchPattern (pattern : Pattern) (commits : List Hash) (children : AssocMap Hash (List Hash))
    : Exec (List Bindings) := do
  if pattern.elements = [] then
    pure []
  else do
    match ← Run.index pattern.elements 0 with
    | .edge _ => fail "pattern must start with a node"
    | .node first => do
      let rows ← bindFirst fuel first (HashSeed.order commits) []
      matchSteps fuel pattern.elements children pattern.elements.length 1 rows

def matchPatterns (commits : List Hash) (children : AssocMap Hash (List Hash))
    : (patterns : List Pattern) → (rows : List Bindings) → Exec (List Bindings)
  | [], rows => pure rows
  | pattern :: rest, rows => do
    let found ← matchPattern fuel pattern commits children
    matchPatterns commits children rest (rows ++ found)

def unionHashes (first second : List Hash) : List Hash :=
  second.foldl (fun set hash => if hash ∈ set then set else set ++ [hash]) first

def execMatch (matchClause : MatchClause) (context : Hash) : Exec (List Bindings) := do
  let ancestors ← lift (DiskStore.collectAncestors fuel context)
  let reachable ← lift (DiskStore.reachableCommits fuel)
  let children ← lift (DiskStore.childrenMap fuel)
  matchPatterns fuel (unionHashes ancestors (HashSeed.order reachable)) children
    matchClause.patterns []

-- Queries

def evalItems (bindings : Bindings) : List ProjectionItem → Except ExecError (List Value)
  | [] => .ok []
  | item :: rest => do
    let value ← evalExpr bindings item.expression
    let values ← evalItems bindings rest
    .ok (value :: values)

def evalRows (items : List ProjectionItem) : List Bindings → Except ExecError (List (List Value))
  | [] => .ok []
  | bindings :: rest => do
    let row ← evalItems bindings items
    let rows ← evalRows items rest
    .ok (row :: rows)

def hashCell (bindings : Bindings) (var : String) : Value :=
  match AssocMap.lookup var bindings with
  | some bound => .string bound.hash.toHex
  | none => .null

/-- Project rows to a selection; without one, to the hashes of the variables of the first row. -/
def projectRows (select : Option SelectClause) (rows : List Bindings) : Exec QueryResult := do
  if rows = [] then
    pure .empty
  else
    match select with
    | none => do
      let first ← Run.index rows 0
      let vars := HashSeed.order (AssocMap.keys first)
      pure { columns := vars, rows := rows.map fun bindings => vars.map (hashCell bindings) }
    | some select => do
      let values ← Run.ofExcept (evalRows select.items rows)
      pure { columns := columnsOf select.items, rows := values }

def passes (whereClause : Option Expression) (bindings : Bindings) : Bool :=
  match whereClause with
  | none => true
  | some expression =>
    match evalBool bindings expression with
    | .ok truth => truth
    | .error _ => false

def enqueuePaths (path : List Hash)
    : (queue : List (Hash × List Hash)) → (visited : List Hash) → List Hash
      → List (Hash × List Hash) × List Hash
  | queue, visited, [] => (queue, visited)
  | queue, visited, hash :: rest =>
    if hash ∈ visited then enqueuePaths path queue visited rest
    else enqueuePaths path (queue ++ [(hash, path ++ [hash])]) (visited ++ [hash]) rest

def pathLoop (children : AssocMap Hash (List Hash)) (start goal : Hash)
    : (fuel : Nat) → (queue : List (Hash × List Hash)) → (visited : List Hash)
      → Exec (List Hash)
  | _, [], _ => fail s!"no path between {start.toHex} and {goal.toHex}"
  | 0, _ :: _, _ => throw .fuel
  | fuel + 1, (current, path) :: queue, visited =>
    if current = goal then
      pure path
    else do
      let commit ← lift (DiskStore.getCommit current)
      let neighbors := commit.parents ++ (AssocMap.lookup current children).getD []
      let (queue, visited) := enqueuePaths path queue visited neighbors
      pathLoop children start goal fuel queue visited

def shortestCommitPath (start goal : Hash) : Exec (List Hash) := do
  let children ← lift (DiskStore.childrenMap fuel)
  pathLoop children start goal fuel [(start, [start])] [start]

def bindTraversal (names : List String)
    : (hashes : List Hash) → (rows : List Bindings) → Exec (List Bindings)
  | [], rows => pure rows
  | hash :: rest, rows => do
    let commit ← lift (DiskStore.getCommit hash)
    let bound ← bindCommit fuel hash commit
    bindTraversal names rest (rows ++ [names.map fun name => (name, bound)])

def traversalRows : TraversalClause → Exec (List Bindings)
  | .mergeBase first second => do
    let left ← resolveTargetRef first
    let right ← resolveTargetRef second
    match ← lift (DiskStore.mergeBase fuel left right) with
    | some hash => bindTraversal fuel ["hash", "_"] [hash] []
    | none => pure []
  | .ancestors target => do
    let start ← resolveTargetRef target
    let hashes ← lift (DiskStore.collectAncestors fuel start)
    bindTraversal fuel ["hash"]
      (hashes.insertionSort fun first second => first.toHex ≤ second.toHex) []
  | .shortestPath first second => do
    let left ← resolveTargetRef first
    let right ← resolveTargetRef second
    let path ← shortestCommitPath fuel left right
    bindTraversal fuel ["hash"] path []

def traversalItems (bindings : Bindings) (bound : BoundCommit)
    : List ProjectionItem → Except ExecError (List Value)
  | [] => .ok []
  | item :: rest => do
    let value ← match item.expression with
      | .var name => .ok (propertyOf bound name)
      | other => evalExpr bindings other
    let values ← traversalItems bindings bound rest
    .ok (value :: values)

def rowCommit (bindings : Bindings) : Except ExecError BoundCommit :=
  match bindings with
  | (_, bound) :: _ => .ok bound
  | [] => .error (.text "empty traversal binding")

def traversalTable (cells : Bindings → BoundCommit → Except ExecError (List Value))
    : List Bindings → Except ExecError (List (List Value))
  | [] => .ok []
  | bindings :: rest => do
    let bound ← rowCommit bindings
    let row ← cells bindings bound
    let rows ← traversalTable cells rest
    .ok (row :: rows)

def defaultCells (_ : Bindings) (bound : BoundCommit) : Except ExecError (List Value) :=
  .ok [.string bound.hash.toHex, .int (asI64 bound.commit.timestamp),
    .string bound.commit.message]

/-- A query that traverses without matching. The filter is not looked at. -/
def execTraversalOnly (query : QueryStatement) (traversal : TraversalClause)
    : Exec QueryResult := do
  let rows ← traversalRows fuel traversal
  match query.select with
  | some select => do
    let table ← Run.ofExcept
      (traversalTable (fun bindings bound => traversalItems bindings bound select.items) rows)
    pure { columns := columnsOf select.items, rows := table }
  | none => do
    let table ← Run.ofExcept (traversalTable defaultCells rows)
    pure { columns := ["hash", "timestamp", "message"], rows := table }

def execContextQuery (query : QueryStatement) (context : Hash) : Exec QueryResult := do
  let commit ← lift (DiskStore.getCommit context)
  let bound ← bindCommit fuel context commit
  let bindings : Bindings := [("_", bound)]
  let wanted ← match query.whereClause with
    | some expression => Run.ofExcept (evalBool bindings expression)
    | none => pure true
  if !wanted then
    pure .empty
  else if query.select.isSome then
    projectRows query.select [bindings]
  else
    pure
      { columns := ["hash", "message", "timestamp"]
        rows := [[.string context.toHex, .string bound.commit.message,
          .int (asI64 bound.commit.timestamp)]] }

def execMatchQuery (query : QueryStatement) : Exec QueryResult := do
  let context ← contextHash query.context
  match query.matchClause with
  | some matchClause => do
    let rows ← execMatch fuel matchClause context
    projectRows query.select (rows.filter (passes query.whereClause))
  | none => execContextQuery fuel query context

/-- Execute a query. A traversal is followed only without a `MATCH` clause. -/
def execQuery (query : QueryStatement) : Exec QueryResult :=
  match query.traversal, query.matchClause with
  | some traversal, none => execTraversalOnly fuel query traversal
  | _, _ => execMatchQuery fuel query

-- Version statements

def commitParents (stmt : CommitStmt) (head : Branch) : Exec (List Hash) :=
  match stmt.parents with
  | some list => list.mapM resolveTargetRef
  | none => pure [head.target]

def docOf (root : Hash) : Exec Doc :=
  if root = Hash.zero then pure SortedMap.empty else lift (docFromHamtRoot fuel root)

def loadSchema : Exec SchemaRegistry := fun store =>
  Run.mapErr .parse (Run.zoom DiskStore.world DiskStore.setWorld
    (SchemaRegistry.load store.repo.path)) store

/-- What a commit is made of: the HEAD branch and the parents, and the data root and the index roots
over those of the first parent.
-/
def prepareCommit (stmt : CommitStmt) : Exec (Branch × List Hash × Hash × IndexRoots) := do
  let head ← headBranch
  let parents ← commitParents stmt head
  let first ← Run.index parents 0
  let baseCommit ← lift (DiskStore.getCommit first)
  let ops ← Run.ofExcept (stmtOps stmt.payload)
  let newRoot ← lift (DiskStore.applyHamtOps fuel
    (if baseCommit.rootHamt = Hash.zero then none else some baseCommit.rootHamt) ops)
  let schema ← loadSchema
  let oldDoc ← docOf fuel baseCommit.rootHamt
  let newDoc ← docOf fuel newRoot
  let indexRoots ← lift (updateIndexesForCommit fuel schema oldDoc newDoc baseCommit.indexRoots)
  pure (head, parents, newRoot, indexRoots)

def commitObjects (stmt : CommitStmt) : Exec (Branch × Hash) := do
  let (head, parents, newRoot, indexRoots) ← prepareCommit fuel stmt
  let newHash ← lift (DiskStore.commitWithIndexes parents newRoot indexRoots
    (stmt.message.getD "commit"))
  pure (head, newHash)

def execCommit (stmt : CommitStmt) : Exec MutationResult := do
  let (head, newHash) ← commitObjects fuel stmt
  lift (DiskStore.updateBranch head.name newHash)
  pure { summary := s!"committed on branch '{head.name}'", hash := some newHash.toHex }

def execBranch : BranchStmt → Exec MutationResult
  | .create name start => do
    let target ← resolveTargetRef (start.getD .head)
    lift (DiskStore.createBranch name target)
    pure { summary := s!"created branch '{name}'", hash := some target.toHex }
  | .delete name => do
    lift (DiskStore.deleteBranch name)
    pure { summary := s!"deleted branch '{name}'", hash := none }

def execCheckout : TargetRef → Exec MutationResult
  | .branch name => do
    lift (DiskStore.setHead name)
    let branch ← lift (DiskStore.getBranch name)
    pure { summary := s!"checked out branch '{name}'", hash := some branch.target.toHex }
  | .head => do
    let head ← headBranch
    pure { summary := s!"already on branch '{head.name}'", hash := some head.target.toHex }
  | .commit hex => do
    let hash ← lift (DiskStore.resolveHashRef hex)
    let _ ← lift (DiskStore.getCommit hash)
    pure
      { summary := s!"resolved commit {hash.toHex} (detached; HEAD unchanged)"
        hash := some hash.toHex }
  | .tag name => fail s!"tags not implemented: {name}"

def mergeBranch : TargetRef → Exec String
  | .branch name => pure name
  | .head => do
    let head ← headBranch
    pure head.name
  | _ => fail "MERGE INTO requires a branch or HEAD"

def execMerge (stmt : MergeStmt) : Exec MutationResult := do
  let source ← resolveTargetRef stmt.source
  let into ← resolveTargetRef stmt.into
  let intoBranch ← mergeBranch stmt.into
  match stmt.strategy with
  | .fastForward => do
    if !(← lift (DiskStore.isAncestor fuel into source)) then
      fail "fast-forward not possible: source is not a descendant of target"
    else do
      lift (DiskStore.updateBranch intoBranch source)
      pure { summary := s!"fast-forwarded '{intoBranch}'", hash := some source.toHex }
  | .threeWay | .squash => fail "THREE_WAY and SQUASH merge strategies are not implemented yet"

def textEntries (entries : List (Bytes × Bytes)) : SortedMap String Bytes :=
  SortedMap.empty.insertAll (entries.map fun (key, value) => (Utf8.decodeLossy key, value))

def showsKey (path : Option String) (key : String) : Bool :=
  match path with
  | none => true
  | some path => key = path || Text.startsWith key s!"{path}."

def diffLine (left right : SortedMap String Bytes) (key : String) : Option String :=
  match left.get key, right.get key with
  | none, some new => some s!"+ {key} = {Utf8.decodeLossy new}"
  | some old, none => some s!"- {key} = {Utf8.decodeLossy old}"
  | some old, some new =>
    if old = new then none
    else some s!"~ {key}: {Utf8.decodeLossy old} => {Utf8.decodeLossy new}"
  | none, none => none

def allKeys (left right : SortedMap String Bytes) : List String :=
  AssocMap.keys ((SortedMap.empty : SortedMap String Unit).insertAll
    ((AssocMap.keys left.entries ++ AssocMap.keys right.entries).map fun key => (key, ()))).entries

def execDiff (stmt : DiffStmt) : Exec MutationResult := do
  let left ← resolveTargetRef stmt.left
  let right ← resolveTargetRef stmt.right
  let leftCommit ← lift (DiskStore.getCommit left)
  let rightCommit ← lift (DiskStore.getCommit right)
  let leftEntries ← lift (DiskStore.hamtEntries fuel leftCommit.rootHamt)
  let rightEntries ← lift (DiskStore.hamtEntries fuel rightCommit.rootHamt)
  let leftMap := textEntries leftEntries
  let rightMap := textEntries rightEntries
  let lines := ((allKeys leftMap rightMap).filter (showsKey stmt.path)).filterMap
    (diffLine leftMap rightMap)
  pure
    { summary := if lines = [] then "diff: no changes" else "diff:\n" ++ Text.join "\n" lines
      hash := none }

def execVersion : VersionStatement → Exec MutationResult
  | .commit stmt => execCommit fuel stmt
  | .branch stmt => execBranch stmt
  | .checkout target => execCheckout target
  | .merge stmt => execMerge fuel stmt
  | .diff stmt => execDiff fuel stmt

def executeStatement : Statement → Exec ExecResult
  | .query query => do
    let result ← execQuery fuel query
    pure (.query result)
  | .version statement => do
    let result ← execVersion fuel statement
    pure (.mutation result)

def ofParse {α : Type} : LexResult α → Exec α
  | .ok value => pure value
  | .error (.err error) => Run.fail (.parse error)
  | .error .panic => throw .panic
  | .error .killed => throw .killed
  | .error .fuel => throw .fuel

def execute (source : String) : Exec (List ExecResult) := do
  let stmts ← ofParse (parseScript source)
  stmts.mapM (executeStatement fuel)

def executeOne (source : String) : Exec ExecResult := do
  let stmt ← ofParse (parse source)
  executeStatement fuel stmt

end Blake3
end Engine
end Epochs.Ql
