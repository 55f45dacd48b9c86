import Epochs.Disk.CasStore
import Epochs.Hamt.Tree
import Epochs.Store.Commit
import Epochs.Store.Repo

/-! The disk-backed commit graph: a repository of refs, a content-addressable store, and a cache
of the commits loaded or made. Loops over stored objects carry a budget.
-/

namespace Epochs

open Lib

def commitCacheCap : Nat := 4096

/-- Iteration order of hash sets and hash maps, which is seeded at random. -/
class HashSeed where
  order : {α : Type} → List α → List α
  perm : ∀ {α : Type} (items : List α), (order items).Perm items

/-- A change to a document tree. -/
inductive HamtOp where
  | put (key value : Bytes)
  deriving DecidableEq

structure DiskStore where
  repo : Repo
  cas : Traced CasDisk
  commitCache : LruMap Hash Commit
  fsyncEvery : Nat
  commitsSinceFsync : Nat

namespace DiskStore

def world (store : DiskStore) : World := store.cas.store.world

def setWorld (store : DiskStore) (world : World) : DiskStore :=
  { store with cas := { store.cas with store := { store.cas.store with world } } }

def onWorld {α : Type} (run : Run EpochsError World α) : Run EpochsError DiskStore α :=
  Run.zoom world setWorld run

def onCas {α : Type} (run : Run EpochsError (Traced CasDisk) α) : Run EpochsError DiskStore α :=
  Run.zoom cas (fun store cas => { store with cas }) run

def flushCas : Run EpochsError DiskStore Unit := onCas (Traced.onStore CasDisk.flush)

def contains (hash : Hash) : Run EpochsError DiskStore Bool := do
  pure ((← get).cas.store.cas.contains hash)

-- Opening and configuring

def assemble (repo : Repo) (cas : CasStore) (world : World) : DiskStore :=
  { repo
    cas := { store := { world, cas }, handed := [] }
    commitCache := LruMap.new commitCacheCap
    fsyncEvery := 1
    commitsSinceFsync := 0 }

def open_ (path : Path) : Run EpochsError World DiskStore := do
  let repo ← Repo.open_ path
  let cas ← CasStore.open_ path
  pure (assemble repo cas (← get))

def setFsyncEvery (n : Nat) : Run EpochsError DiskStore Unit :=
  modify fun store => { store with fsyncEvery := max n 1 }

def configureCaches (objectCap commitCap mmapSegments : Nat) : Run EpochsError DiskStore Unit := do
  onCas (Traced.onStore (CasDisk.update fun cas =>
    (cas.setObjectCacheCap objectCap).setMmapCap mmapSegments))
  modify fun store => { store with commitCache := LruMap.new commitCap }

def flush : Run EpochsError DiskStore Unit := do
  flushCas
  modify fun store => { store with commitsSinceFsync := 0 }

section Blake3

variable [Blake3]

def getObject (hash : Hash) : Run EpochsError DiskStore (RecordType × Bytes) :=
  onCas (Traced.getRecord hash)

def writeGenesis (message : String) : Run EpochsError DiskStore Hash := do
  let now ← onWorld World.nowMillis
  let hash ← onCas (Traced.put .commit (Commit.new [] Hash.zero now message).encodePayload)
  flushCas
  pure hash

def initialise (defaultBranch message : String) : Run EpochsError DiskStore Hash := do
  let commitHash ← writeGenesis message
  onWorld ((← get).repo.createBranch defaultBranch commitHash)
  let repo ← onWorld ((← get).repo.setHead defaultBranch)
  modify fun store => { store with repo }
  pure commitHash

def init (path : Path) (defaultBranch message : String)
    : Run EpochsError World (DiskStore × Hash) := do
  let repo ← Repo.init path
  let cas ← CasStore.open_ path
  let world ← get
  match initialise defaultBranch message (assemble repo cas world) with
  | .ok hash store => do
    set store.world
    pure (store, hash)
  | .error fault store => do
    set store.world
    throw fault

def reopen : Run EpochsError DiskStore Unit := do
  let _ ← Run.observe flushCas
  let path := (← get).repo.path
  let opened ← onWorld (open_ path)
  modify fun store => { opened with cas := { opened.cas with handed := store.cas.handed } }

-- Refs

def getBranch (name : String) : Run EpochsError DiskStore Branch := do
  onWorld ((← get).repo.readBranch name)

def head : Run EpochsError DiskStore (Option Branch) := do
  match (← get).repo.head with
  | some name => do
    let branch ← getBranch name
    pure (some branch)
  | none => pure none

def setHead (branchName : String) : Run EpochsError DiskStore Unit := do
  let repo ← onWorld ((← get).repo.setHead branchName)
  modify fun store => { store with repo }

def createBranch (name : String) (target : Hash) : Run EpochsError DiskStore Unit := do
  if !(← contains target) then
    Run.fail (.commitNotFound target)
  else
    onWorld ((← get).repo.createBranch name target)

def updateBranch (name : String) (target : Hash) : Run EpochsError DiskStore Unit := do
  if !(← contains target) then
    Run.fail (.commitNotFound target)
  else
    onWorld ((← get).repo.updateBranch name target)

def deleteBranch (name : String) : Run EpochsError DiskStore Unit := do
  onWorld ((← get).repo.deleteBranch name)

def listBranches : Run EpochsError DiskStore (List String) := do
  onWorld ((← get).repo.listBranches)

def resolveHashRef (hex : String) : Run EpochsError DiskStore Hash := do
  if Text.len hex = 64 then do
    let hash ← Run.ofExcept (Hash.fromHex hex)
    if ← contains hash then
      pure hash
    else
      Run.fail (.commitNotFound hash)
  else
    match (← get).cas.store.cas.index.findByPrefix hex with
    | [] => Run.fail (.invalidTarget s!"no object matches prefix '{hex}'")
    | [hash] => pure hash
    | found =>
      Run.fail (.invalidTarget s!"ambiguous hash prefix '{hex}' ({found.length} matches)")

def resolveTarget (target : String) : Run EpochsError DiskStore Hash := do
  if Text.eqIgnoreCase target "HEAD" then
    match ← head with
    | some branch => pure branch.target
    | none => Run.fail (.invalidTarget "HEAD not set")
  else
    match ← Run.observe (getBranch target) with
    | .ok branch => pure branch.target
    | .error _ => resolveHashRef target

-- Commits

def loadCommit (hash : Hash) : Run EpochsError DiskStore Commit := do
  match (← get).commitCache.get hash with
  | some commit => pure commit
  | none => do
    let (recordType, payload) ← getObject hash
    if recordType ≠ .commit then
      Run.fail (.codec "hash is not a commit")
    else do
      let commit ← Run.ofExcept (Commit.decodePayload payload)
      modify fun store => { store with commitCache := store.commitCache.insert hash commit }
      pure commit

def flushIfDue : Run EpochsError DiskStore Unit := do
  if (← get).fsyncEvery ≤ (← get).commitsSinceFsync then
    flush
  else
    pure ()

def persistCommit (commit : Commit) : Run EpochsError DiskStore Hash := do
  let hash ← onCas (Traced.put .commit commit.encodePayload)
  modify fun store =>
    { store with
      commitCache := store.commitCache.insert hash commit
      commitsSinceFsync := store.commitsSinceFsync + 1 }
  flushIfDue
  pure hash

def checkParents : List Hash → Run EpochsError DiskStore Unit
  | [] => pure ()
  | parent :: rest => do
    if !(← contains parent) then
      Run.fail (.invalidCommit s!"parent not found: {parent.toHex}")
    else
      checkParents rest

/-- The next timestamp of this process: a counter that starts at the clock. -/
def nextTimestamp : Run EpochsError World Nat := do
  let count := (← get).timestamps % 2 ^ 64
  modify fun world => { world with timestamps := (count + 1) % 2 ^ 64 }
  if count = 0 then do
    let now ← World.nowMillis
    modify fun world => { world with timestamps := (now + 1) % 2 ^ 64 }
    pure now
  else
    pure count

def commitWithIndexes (parents : List Hash) (rootHamt : Hash) (indexRoots : SortedMap String Hash)
    (message : String) : Run EpochsError DiskStore Hash := do
  checkParents parents
  let now ← onWorld World.nowMillis
  persistCommit (Commit.withIndexes parents rootHamt now message indexRoots)

def commitWithRoot (parents : List Hash) (rootHamt : Hash) (message : String)
    : Run EpochsError DiskStore Hash := do
  checkParents parents
  let now ← onWorld nextTimestamp
  persistCommit (Commit.new parents rootHamt now message)

def baseRoot (root : Option Hash) : Option Hash := if root = some Hash.zero then none else root

def applyOps (fuel : Nat) : (root : Option Hash) → List HamtOp → Run EpochsError DiskStore (Option Hash)
  | root, [] => pure root
  | root, .put key value :: rest => do
    let next ← onCas (PersistentHamt.insert fuel (baseRoot root) key value)
    applyOps fuel (some next) rest

def applyHamtOps (fuel : Nat) (root : Option Hash) (ops : List HamtOp)
    : Run EpochsError DiskStore Hash := do
  let current ← applyOps fuel root ops
  pure (current.getD Hash.zero)

def commit (fuel : Nat) (parents : List Hash) (root : Option Hash) (ops : List HamtOp)
    (message : String) : Run EpochsError DiskStore Hash := do
  let current ← applyOps fuel root ops
  commitWithRoot parents (current.getD Hash.zero) message

def indexPut (fuel : Nat) (indexRoot : Option Hash) (key value : Bytes)
    : Run EpochsError DiskStore Hash :=
  onCas (PersistentHamt.insert fuel indexRoot key value)

def indexRemove (fuel : Nat) (indexRoot : Option Hash) (key : Bytes)
    : Run EpochsError DiskStore (Option Hash) :=
  onCas (PersistentHamt.remove fuel indexRoot key)

def get (fuel : Nat) (root : Hash) (key : Bytes) : Run EpochsError DiskStore (Option Bytes) :=
  if root = Hash.zero then pure none else onCas (PersistentHamt.get fuel (some root) key)

def indexGet (fuel : Nat) (indexRoot : Hash) (key : Bytes)
    : Run EpochsError DiskStore (Option Bytes) :=
  get fuel indexRoot key

def hamtLeafHash (fuel : Nat) (root : Hash) (key : Bytes)
    : Run EpochsError DiskStore (Option Hash) :=
  if root = Hash.zero then pure none else onCas (PersistentHamt.leafHash fuel (some root) key)

def hamtEntries (fuel : Nat) (root : Hash) : Run EpochsError DiskStore (List (Bytes × Bytes)) :=
  if root = Hash.zero then pure [] else onCas (PersistentHamt.entries fuel (some root))

def getCommit (hash : Hash) : Run EpochsError DiskStore Commit := loadCommit hash

def checkout (target : String) : Run EpochsError DiskStore Commit := do
  let hash ← resolveTarget target
  loadCommit hash

-- Walks over the commit graph

def walkParents
    : (fuel : Nat) → (queue visited : List Hash) → Run EpochsError DiskStore (List Hash)
  | _, [], visited => pure visited
  | 0, _ :: _, _ => throw .fuel
  | fuel + 1, current :: queue, visited =>
    if current ∈ visited then
      walkParents fuel queue visited
    else do
      let commit ← loadCommit current
      walkParents fuel (queue ++ commit.parents) (visited ++ [current])

def walkBranches (fuel : Nat)
    : (names : List String) → (visited : List Hash) → Run EpochsError DiskStore (List Hash)
  | [], visited => pure visited
  | name :: rest, visited => do
    let branch ← getBranch name
    let visited ← walkParents fuel [branch.target] visited
    walkBranches fuel rest visited

def reachableCommits (fuel : Nat) : Run EpochsError DiskStore (List Hash) := do
  let names ← listBranches
  walkBranches fuel names []

def addChild (child : Hash) (map : AssocMap Hash (List Hash)) (parents : List Hash)
    : AssocMap Hash (List Hash) :=
  parents.foldl (fun map parent =>
    AssocMap.insert parent ((AssocMap.lookup parent map).getD [] ++ [child]) map) map

def childrenOf : (commits : List Hash) → (map : AssocMap Hash (List Hash))
    → Run EpochsError DiskStore (AssocMap Hash (List Hash))
  | [], map => pure map
  | hash :: rest, map => do
    let commit ← loadCommit hash
    childrenOf rest (addChild hash map commit.parents)

def childrenMap [HashSeed] (fuel : Nat)
    : Run EpochsError DiskStore (AssocMap Hash (List Hash)) := do
  let commits ← reachableCommits fuel
  childrenOf (HashSeed.order commits) []

end Blake3
end DiskStore
end Epochs
