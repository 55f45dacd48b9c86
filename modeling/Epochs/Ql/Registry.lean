import Epochs.Disk.Files
import Epochs.Lib.SortedMap
import Epochs.Ql.Ddl

/-! The schema registry, its state file, and how migrations change it. -/

namespace Epochs.Ql

open Lib

structure FieldDef where
  path : String
  fieldType : FieldType
  deriving DecidableEq

structure IndexDef where
  name : String
  path : String
  fieldType : FieldType
  deriving DecidableEq

structure CollectionSchema where
  name : String
  primaryKey : List FieldDef
  indexes : List IndexDef
  deriving DecidableEq

structure SchemaRegistry where
  collections : SortedMap String CollectionSchema
  deriving DecidableEq

def indexNameFor (collection path : String) : String :=
  let replaced := Text.replace '.' '_' path
  s!"{collection}.by_{replaced}"

namespace SchemaRegistry

def new : SchemaRegistry := { collections := SortedMap.empty }

def allIndexes (registry : SchemaRegistry) : List IndexDef :=
  registry.collections.values.flatMap CollectionSchema.indexes

-- The state file

def lineError {α : Type} (lineno : Nat) (message : String) : Except ParseError α :=
  .error { message := .text s!"schema.state line {lineno}: {message}", offset := some 0 }

def part (lineno : Nat) (parts : List String) (index : Nat) (message : String)
    : Except ParseError String :=
  match parts[index]? with
  | some found => .ok found
  | none => lineError lineno message

def typeAt (lineno : Nat) (text : String) : Except ParseError FieldType :=
  match FieldType.parse text with
  | some fieldType => .ok fieldType
  | none => lineError lineno s!"unknown type '{text}'"

structure ParseState where
  registry : SchemaRegistry
  current : Option String

def setCollection (registry : SchemaRegistry) (name : String) (collection : CollectionSchema)
    : SchemaRegistry :=
  { collections := registry.collections.insert name collection }

def readCollection (lineno : Nat) (parts : List String) (state : ParseState)
    : Except ParseError ParseState := do
  let name ← part lineno parts 1 "expected collection name"
  pure
    { registry := state.registry.setCollection name { name, primaryKey := [], indexes := [] }
      current := some name }

def readKey (lineno : Nat) (parts : List String) (state : ParseState)
    : Except ParseError ParseState :=
  match state.current with
  | none => lineError lineno "KEY outside COLLECTION"
  | some name => do
    let path ← part lineno parts 1 "expected KEY path"
    let typeName ← part lineno parts 2 "expected KEY type"
    let fieldType ← typeAt lineno typeName
    match state.registry.collections.get name with
    | none => lineError lineno "missing collection"
    | some collection =>
      pure { state with
        registry := state.registry.setCollection name
          { collection with primaryKey := collection.primaryKey ++ [{ path, fieldType }] } }

/-- Read an `INDEX` line. The collection is the name up to its first dot. -/
def readIndex (lineno : Nat) (parts : List String) (state : ParseState)
    : Except ParseError ParseState := do
  let name ← part lineno parts 1 "expected INDEX name"
  if parts[2]? ≠ some "PATH" then
    lineError lineno "expected PATH after index name"
  else do
    let path ← part lineno parts 3 "expected index path"
    if parts[4]? ≠ some "TYPE" then
      lineError lineno "expected TYPE after path"
    else do
      let typeName ← part lineno parts 5 "expected type"
      let fieldType ← typeAt lineno typeName
      let owner := (Text.split '.' name).headD ""
      let collection := (state.registry.collections.get owner).getD
        { name := owner, primaryKey := [], indexes := [] }
      pure { state with
        registry := state.registry.setCollection owner
          { collection with indexes := collection.indexes ++ [{ name, path, fieldType }] } }

/-- Read one line. Blank lines and comments are skipped, words after the expected ones ignored. -/
def readLine (lineno : Nat) (line : String) (state : ParseState) : Except ParseError ParseState :=
  if Text.trim line = "" ∨ Text.startsWith (Text.trim line) "#" then
    .ok state
  else
    let parts := Text.splitWhitespace (Text.trim line)
    match parts with
    | [] => .ok state
    | directive :: _ =>
      if directive = "COLLECTION" then readCollection lineno parts state
      else if directive = "KEY" then readKey lineno parts state
      else if directive = "INDEX" then readIndex lineno parts state
      else lineError lineno s!"unknown directive '{directive}'"

def readLines : (lineno : Nat) → (lines : List String) → ParseState → Except ParseError ParseState
  | _, [], state => .ok state
  | lineno, line :: rest, state => do
    let state ← readLine lineno line state
    readLines (lineno + 1) rest state

def parse (text : String) : Except ParseError SchemaRegistry :=
  (readLines 1 (Text.lines text) { registry := new, current := none }).map ParseState.registry

def keyLine (key : FieldDef) : String := s!"KEY {key.path} {key.fieldType.display}\n"

def indexLine (index : IndexDef) : String :=
  s!"INDEX {index.name} PATH {index.path} TYPE {index.fieldType.display}\n"

def collectionLines (collection : CollectionSchema) : List String :=
  s!"COLLECTION {collection.name}\n" :: collection.primaryKey.map keyLine
    ++ collection.indexes.map indexLine

/-- The text of the state file. Names and paths are written as they are. -/
def toStateFile (registry : SchemaRegistry) : String :=
  Text.join ""
    ("# epochs schema.state — generated; prefer .eql migrations\n"
      :: registry.collections.values.flatMap collectionLines)

def ioText : EpochsError → String
  | .io message => message
  | _ => ""

def load (repoPath : Path) : Run ParseError World SchemaRegistry := do
  let parts := repoPath ++ ["schema.state"]
  if !(← Run.mapErr (fun error => ParseError.new (ioText error)) (World.exists_ parts)) then
    pure new
  else do
    let text ← Run.mapErr (fun error => ParseError.new s!"read schema.state: {ioText error}")
      (World.readToString parts)
    Run.ofExcept (parse text)

-- Migrations

def applyStatement (registry : SchemaRegistry) : DdlStatement → Except ParseError SchemaRegistry
  | .createCollection name keys =>
    match registry.collections.get name with
    | some _ => .error (ParseError.new s!"collection '{name}' already exists")
    | none =>
      .ok (registry.setCollection name
        { name
          primaryKey := keys.map fun (path, fieldType) => { path, fieldType }
          indexes := [] })
  | .createIndex collection path fieldType =>
    match registry.collections.get collection with
    | none => .error (ParseError.new s!"unknown collection '{collection}'")
    | some found =>
      let name := indexNameFor collection path
      if found.indexes.any fun index => index.name = name then
        .error (ParseError.new s!"index '{name}' already exists")
      else
        .ok (registry.setCollection collection
          { found with indexes := found.indexes ++ [{ name, path, fieldType }] })
  | .dropIndex collection path =>
    match registry.collections.get collection with
    | none => .error (ParseError.new s!"unknown collection '{collection}'")
    | some found =>
      let name := indexNameFor collection path
      -- Every index of the name goes, and every index of the path.
      let kept := found.indexes.filter fun index => index.name ≠ name ∧ index.path ≠ path
      if kept.length = found.indexes.length then
        .error (ParseError.new s!"index on '{collection}.{path}' not found")
      else
        .ok (registry.setCollection collection { found with indexes := kept })

def applyStatements : SchemaRegistry → List DdlStatement → Except ParseError SchemaRegistry
  | registry, [] => .ok registry
  | registry, statement :: rest => do
    let registry ← applyStatement registry statement
    applyStatements registry rest

end SchemaRegistry
end Epochs.Ql
