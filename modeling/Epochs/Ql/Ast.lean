import Epochs.Lib.Binary64

/-! The syntax trees of the query language. -/

namespace Epochs.Ql

open Lib

inductive TargetRef where
  | head
  | branch (name : String)
  | commit (hex : String)
  | tag (name : String)
  deriving DecidableEq

inductive BinaryOp where
  | eq
  | neq
  | and
  | or
  deriving DecidableEq

/-- Expressions. A map literal lists its entries in the order of their keys. -/
inductive Expression where
  | null
  | bool (value : Bool)
  | int (value : Int)
  | float (value : Binary64)
  | string (value : String)
  | var (name : String)
  | propertyAccess (object : Expression) (property : String)
  | binary (left : Expression) (op : BinaryOp) (right : Expression)
  | map (entries : List (String × Expression))

inductive EdgeDirection where
  | outgoing
  | incoming
  deriving DecidableEq

inductive EdgeType where
  | parent
  | child
  | ancestor
  | descendant
  deriving DecidableEq

/-- How many edges an edge pattern follows. -/
inductive HopMultiplier where
  | any
  | exact (hops : Nat)
  | range (min max : Option Nat)
  deriving DecidableEq

structure NodePattern where
  var : Option String
  label : Option String
  properties : List (String × Expression)

structure EdgePattern where
  direction : EdgeDirection
  edgeType : EdgeType
  multiplier : Option HopMultiplier
  deriving DecidableEq

inductive PatternElement where
  | node (node : NodePattern)
  | edge (edge : EdgePattern)

structure Pattern where
  elements : List PatternElement

structure MatchClause where
  patterns : List Pattern

structure ContextClause where
  target : TargetRef
  deriving DecidableEq

inductive TraversalClause where
  | mergeBase (first second : TargetRef)
  | shortestPath (first second : TargetRef)
  | ancestors (start : TargetRef)
  deriving DecidableEq

structure ProjectionItem where
  expression : Expression
  alias_ : Option String

structure SelectClause where
  items : List ProjectionItem

structure QueryStatement where
  context : Option ContextClause := none
  matchClause : Option MatchClause := none
  traversal : Option TraversalClause := none
  whereClause : Option Expression := none
  select : Option SelectClause := none

structure CommitStmt where
  payload : List (String × Expression)
  message : Option String
  parents : Option (List TargetRef)

inductive BranchStmt where
  | create (name : String) (start : Option TargetRef)
  | delete (name : String)
  deriving DecidableEq

inductive MergeStrategy where
  | fastForward
  | threeWay
  | squash
  deriving DecidableEq

structure MergeStmt where
  source : TargetRef
  into : TargetRef
  strategy : MergeStrategy
  deriving DecidableEq

structure DiffStmt where
  left : TargetRef
  right : TargetRef
  path : Option String
  deriving DecidableEq

/-- Statements that read or change refs. -/
inductive VersionStatement where
  | commit (stmt : CommitStmt)
  | branch (stmt : BranchStmt)
  | checkout (target : TargetRef)
  | merge (stmt : MergeStmt)
  | diff (stmt : DiffStmt)

inductive Statement where
  | query (query : QueryStatement)
  | version (statement : VersionStatement)

end Epochs.Ql
