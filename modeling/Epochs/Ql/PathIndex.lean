import Epochs.Ql.Registry
import Epochs.Ql.Value
import Epochs.Store.DiskStore

/-! Documents as flat maps of dotted paths, and the upkeep of path indexes when a commit is
made.
-/

namespace Epochs.Ql

open Lib

abbrev Doc := SortedMap String Value

/-- The document of the entries of a tree. Of keys that read as the same text the last counts. -/
def flattenEntries (entries : List (Bytes × Bytes)) : Doc :=
  SortedMap.empty.insertAll
    (entries.map fun (key, value) => (Utf8.decodeLossy key, Value.fromBytes value))

def walkValue : (current : Value) → (parts : List String) → Option Value
  | current, [] => some current
  | .map entries, part :: rest =>
    match AssocMap.lookup part entries with
    | some found => walkValue found rest
    | none => none
  | _, _ :: _ => none

/-- The value at a path: the entry of the whole path, else a walk along its parts. -/
def extractPath (doc : Doc) (path : String) : Option Value :=
  match doc.get path with
  | some value => some value
  | none =>
    match (Text.split '.' path).filter (· ≠ "") with
    | [] => none
    | first :: rest =>
      match doc.get first with
      | some value => walkValue value rest
      | none => none

def keyParts (doc : Doc) : List FieldDef → Option (List Bytes)
  | [] => some []
  | field :: rest => do
    let value ← extractPath doc field.path
    let bytes ← value.toIndexKey
    let parts ← keyParts doc rest
    pure (bytes :: parts)

def joinKey : List Bytes → Bytes
  | [] => []
  | [part] => part
  | part :: rest => part ++ 0x1F :: joinKey rest

/-- The primary key of a document in a collection; without key fields, its field `id`. -/
def primaryKeyBytes (coll : CollectionSchema) (doc : Doc) : Option Bytes :=
  if coll.primaryKey = [] then
    (extractPath doc "id").bind Value.toIndexKey
  else
    (keyParts doc coll.primaryKey).map joinKey

abbrev IndexRoots := SortedMap String Hash

def rootOf (indexRoots : IndexRoots) (name : String) : Option Hash :=
  (indexRoots.get name).filter (· ≠ Hash.zero)

section Blake3

variable [Blake3] (fuel : Nat)

def removeStale (idx : IndexDef) (oldVal newVal : Option Value) (pk : Option Bytes)
    (indexRoots : IndexRoots) : Run EpochsError DiskStore IndexRoots :=
  match oldVal, pk with
  | some old, some _ =>
    if (match newVal with
        | some new => old.eq new
        | none => false) then
      pure indexRoots
    else
      match old.toIndexKey with
      | none => pure indexRoots
      | some oldKey => do
        match ← DiskStore.indexRemove fuel (rootOf indexRoots idx.name) oldKey with
        | some root => pure (indexRoots.insert idx.name root)
        | none => pure (indexRoots.remove idx.name)
  | _, _ => pure indexRoots

def putPresent (idx : IndexDef) (newVal : Option Value) (pk : Option Bytes)
    (indexRoots : IndexRoots) : Run EpochsError DiskStore IndexRoots :=
  match newVal, pk with
  | some new, some pkBytes =>
    match new.toIndexKey with
    | none => pure indexRoots
    | some newKey => do
      let root ← DiskStore.indexPut fuel (rootOf indexRoots idx.name) newKey pkBytes
      pure (indexRoots.insert idx.name root)
  | _, _ => pure indexRoots

def updateIndex (oldDoc newDoc : Doc) (pk : Option Bytes) (indexRoots : IndexRoots)
    (idx : IndexDef) : Run EpochsError DiskStore IndexRoots := do
  let oldVal := extractPath oldDoc idx.path
  let newVal := extractPath newDoc idx.path
  let indexRoots ← removeStale fuel idx oldVal newVal pk indexRoots
  putPresent fuel idx newVal pk indexRoots

def updateCollection (oldDoc newDoc : Doc) (indexRoots : IndexRoots) (coll : CollectionSchema)
    : Run EpochsError DiskStore IndexRoots :=
  let pk := (primaryKeyBytes coll newDoc).or (primaryKeyBytes coll oldDoc)
  coll.indexes.foldlM (updateIndex fuel oldDoc newDoc pk) indexRoots

/-- Update all indexes of the schema, and drop the roots of other indexes. -/
def updateIndexesForCommit (schema : SchemaRegistry) (oldDoc newDoc : Doc)
    (prevIndexRoots : IndexRoots) : Run EpochsError DiskStore IndexRoots :=
  if schema.collections.entries = [] then
    pure prevIndexRoots
  else do
    let indexRoots ← schema.collections.values.foldlM (updateCollection fuel oldDoc newDoc)
      prevIndexRoots
    pure (indexRoots.retain fun name => (schema.allIndexes.map IndexDef.name).contains name)

def lookupIndex (indexRoots : IndexRoots) (index : IndexDef) (value : Value)
    : Run EpochsError DiskStore (Option Bytes) :=
  match rootOf indexRoots index.name with
  | none => pure none
  | some root =>
    match value.toIndexKey with
    | none => pure none
    | some key => DiskStore.indexGet fuel root key

def docFromHamtRoot (root : Hash) : Run EpochsError DiskStore Doc := do
  let entries ← DiskStore.hamtEntries fuel root
  pure (flattenEntries entries)

end Blake3
end Epochs.Ql
