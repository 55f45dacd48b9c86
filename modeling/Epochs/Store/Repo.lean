import Epochs.Disk.Files
import Mathlib.Data.List.Sort
import Mathlib.Data.String.Basic

/-! Refs and HEAD of a repository. A branch name is joined to the directory of refs as it is:
it may be absolute, have several parts, or lead out of that directory.
-/

namespace Epochs

open Lib

structure Branch where
  name : String
  target : Hash
  deriving DecidableEq

structure Repo where
  path : Path
  head : Option String
  deriving DecidableEq

namespace Repo

def display (path : Path) : String := "/" ++ Text.join "/" path

def heads (path : Path) : Path := path ++ ["refs", "heads"]

def headPath (path : Path) : Path := path ++ ["HEAD"]

def headMark : String := "ref: refs/heads/"

def init (path : Path) : Run EpochsError World Repo := do
  World.createDirAll (path ++ ["data"])
  World.createDirAll (heads path)
  if !(← World.exists_ (headPath path)) then
    World.writeFile (headPath path) (Utf8.encode "ref: refs/heads/main\n")
  pure { path, head := some "main" }

def readHead (path : Path) : Run EpochsError World (Option String) := do
  if !(← World.exists_ (headPath path)) then
    pure none
  else do
    let contents ← World.readToString (headPath path)
    pure (Text.stripFront headMark (Text.trim contents))

def open_ (path : Path) : Run EpochsError World Repo := do
  if !(← World.exists_ (path ++ ["data"])) then
    Run.fail (.io s!"not an epochs repository: {display path}")
  else do
    let head ← readHead path
    pure { path, head }

/-- The parts of the path of a ref. An absolute name replaces the directory. -/
def branchRefPath (repo : Repo) (name : String) : List String :=
  match name.toList with
  | '/' :: rest => Text.split '/' (String.ofList rest)
  | _ => heads repo.path ++ Text.split '/' name

def refExists (repo : Repo) (name : String) : Run EpochsError World Bool :=
  World.exists_ (repo.branchRefPath name)

def setHead (repo : Repo) (branch : String) : Run EpochsError World Repo := do
  if !(← repo.refExists branch) then
    Run.fail (.branchNotFound branch)
  else do
    World.writeFile (headPath repo.path) (Utf8.encode s!"ref: refs/heads/{branch}\n")
    pure { repo with head := some branch }

def readBranch (repo : Repo) (name : String) : Run EpochsError World Branch := do
  if !(← repo.refExists name) then
    Run.fail (.branchNotFound name)
  else do
    let contents ← World.readToString (repo.branchRefPath name)
    let target ← Run.ofExcept (Hash.fromHex (Text.trim contents))
    pure { name, target }

def createParents (parts : List String) : Run EpochsError World Unit :=
  match World.parent parts with
  | some parent => World.createDirs parent
  | none => pure ()

def writeBranch (repo : Repo) (name : String) (target : Hash) : Run EpochsError World Unit := do
  createParents (repo.branchRefPath name)
  World.writeFile (repo.branchRefPath name) (Utf8.encode s!"{target.toHex}\n")

def createBranch (repo : Repo) (name : String) (target : Hash) : Run EpochsError World Unit := do
  if ← repo.refExists name then
    Run.fail (.branchExists name)
  else
    repo.writeBranch name target

def updateBranch (repo : Repo) (name : String) (target : Hash) : Run EpochsError World Unit := do
  if !(← repo.refExists name) then
    Run.fail (.branchNotFound name)
  else
    repo.writeBranch name target

/-- Delete a branch ref, unless its name is the HEAD branch's. -/
def deleteBranch (repo : Repo) (name : String) : Run EpochsError World Unit := do
  if repo.head = some name then
    Run.fail (.invalidTarget s!"cannot delete HEAD branch '{name}'")
  else if !(← repo.refExists name) then
    Run.fail (.branchNotFound name)
  else
    World.removeFile (repo.branchRefPath name)

def fileNames (fs : FileSystem) (directory : Path) : List String :=
  ((fs.children directory).filterMap fun (name, node) =>
    match node with
    | .file _ => some name
    | .dir => none).insertionSort (· ≤ ·)

def listBranches (repo : Repo) : Run EpochsError World (List String) := do
  let fs := (← get).fs
  match fs.node (heads repo.path) with
  | some .dir => pure (fileNames fs (heads repo.path))
  | some (.file _) => Run.fail World.notADirectory
  | none => pure []

end Repo
end Epochs
