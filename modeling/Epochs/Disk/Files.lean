import Epochs.Disk.World
import Epochs.Lib.Text

/-! Whole-file operations of the standard library, on paths as the program builds them: parts
between slashes, which may be empty, `.` or `..`. There are no symbolic links.
-/

namespace Epochs.World

open Lib

def nameTooLong : EpochsError := .io "File name too long (os error 36)"
def nulInPath : EpochsError := .io "file name contained an unexpected NUL byte"

def walk (fs : FileSystem) : (base : Path) → (parts : List String) → Except EpochsError Path
  | base, [] => .ok base
  | base, part :: rest =>
    if part = "" ∨ part = "." then walk fs base rest
    else if part = ".." then walk fs base.dropLast rest
    else if 255 < Text.len part then .error nameTooLong
    else if rest = [] then .ok (base ++ [part])
    else
      match fs.node (base ++ [part]) with
      | some .dir => walk fs (base ++ [part]) rest
      | some (.file _) => .error notADirectory
      | none => .error noSuchFile

def textLength (parts : List String) : Nat := (parts.map fun part => Text.len part + 1).sum

def resolve (fs : FileSystem) (parts : List String) : Except EpochsError Path :=
  if parts.any fun part => part.toList.contains '\x00' then .error nulInPath
  else if 4096 ≤ textLength parts then .error nameTooLong
  else walk fs [] parts

def exists_ (parts : List String) : Run EpochsError World Bool := do
  let fs := (← get).fs
  match resolve fs parts with
  | .ok path => pure (fs.node path).isSome
  | .error _ => pure false

def parent (parts : List String) : Option (List String) :=
  let named := parts.filter fun part => part ≠ "" ∧ part ≠ "."
  if named = [] then none else some named.dropLast

def makeDirs : (base : Path) → (parts : List String) → Run EpochsError World Unit
  | _, [] => pure ()
  | base, part :: rest =>
    if part = "" ∨ part = "." then makeDirs base rest
    else if part = ".." then makeDirs base.dropLast rest
    else if 255 < Text.len part then Run.fail nameTooLong
    else do
      match (← get).fs.node (base ++ [part]) with
      | some .dir => makeDirs (base ++ [part]) rest
      | some (.file _) => Run.fail (if rest = [] then fileExists else notADirectory)
      | none =>
        change fun fs => fs.mkdir (base ++ [part])
        makeDirs (base ++ [part]) rest

def createDirs (parts : List String) : Run EpochsError World Unit :=
  if parts.any fun part => part.toList.contains '\x00' then Run.fail nulInPath
  else if 4096 ≤ textLength parts then Run.fail nameTooLong
  else makeDirs [] parts

/-- The error of opening a path for writing that cannot be resolved. A missing file named with
a slash at its end is taken for a directory.
-/
def openError (fs : FileSystem) (parts : List String) (error : EpochsError) : EpochsError :=
  if parts.getLast? = some "" then
    match resolve fs (parts.reverse.dropWhile (· = "")).reverse with
    | .ok path => if fs.node path = none then isADirectory else error
    | .error _ => error
  else error

def writeFile (parts : List String) (bytes : Bytes) : Run EpochsError World Unit := do
  let fs := (← get).fs
  match resolve fs parts with
  | .error error => Run.fail (openError fs parts error)
  | .ok path =>
    match fs.node path with
    | some .dir => Run.fail isADirectory
    | some (.file inode) => do
      change fun fs => fs.setContent inode []
      append inode bytes
    | none => do
      change fun fs => fs.create path
      append fs.nextInode bytes

def readToString (parts : List String) : Run EpochsError World String := do
  let fs := (← get).fs
  match resolve fs parts with
  | .error error => Run.fail error
  | .ok path =>
    match fs.node path with
    | some .dir => Run.fail isADirectory
    | none => Run.fail noSuchFile
    | some (.file inode) =>
      match Utf8.decode (fs.content inode) with
      | some text => pure text
      | none => Run.fail invalidUtf8

def readDir (parts : List String) : Run EpochsError World (List String) := do
  let fs := (← get).fs
  match resolve fs parts with
  | .error error => Run.fail error
  | .ok path =>
    match fs.node path with
    | some .dir => pure ((fs.children path).map Prod.fst)
    | some (.file _) => Run.fail notADirectory
    | none => Run.fail noSuchFile

def removeFile (parts : List String) : Run EpochsError World Unit := do
  let fs := (← get).fs
  match resolve fs parts with
  | .error error => Run.fail error
  | .ok path =>
    match fs.node path with
    | some .dir => Run.fail isADirectory
    | none => Run.fail noSuchFile
    | some (.file _) => change fun fs => fs.unlink path

end Epochs.World
