import Epochs.Ql.Engine

/-! The commit command. Without assignments it takes a path of its own through the store; with
assignments it runs a statement.
-/

namespace Epochs.Cli

open Lib DiskStore

inductive CliError where
  | core (error : EpochsError)
  | exec (error : Ql.ExecError)

inductive Printed where
  | committed (hash : Hash) (branch : String)
  | results (results : List Ql.ExecResult)

def parseKv (pair : String) : Except EpochsError (String × String) :=
  match pair.toList.span (· ≠ '=') with
  | (char :: key, _ :: value) => .ok (String.ofList (char :: key), String.ofList value)
  | _ => .error (.codec s!"invalid key=value pair: {pair}")

def escape (text : String) : String :=
  String.ofList (text.toList.flatMap fun char =>
    if char = '\\' ∨ char = '"' then ['\\', char] else [char])

def commitSource (pairs : List (String × String)) (message : String) : String :=
  "COMMIT \x7b "
    ++ Text.join ", " (pairs.map fun (key, value) => key ++ ": \"" ++ escape value ++ "\"")
    ++ " \x7d MESSAGE \"" ++ escape message ++ "\";"

section

variable [Blake3]

def commitHead (fuel : Nat) (message : String) : Run EpochsError DiskStore (Hash × String) := do
  match ← head with
  | none => Run.fail (.invalidTarget "HEAD not set")
  | some head => do
    let parentCommit ← getCommit head.target
    let root := if parentCommit.rootHamt = Hash.zero then none else some parentCommit.rootHamt
    let newHash ← commit fuel [head.target] root [] message
    updateBranch head.name newHash
    pure (newHash, head.name)

def cmdCommit [HashSeed] (fuel : Nat) (message : Option String) (set : List String)
    : Run CliError DiskStore Printed := do
  let msg := message.getD "commit"
  if set = [] then do
    let (hash, branch) ← Run.mapErr .core (commitHead fuel msg)
    pure (.committed hash branch)
  else do
    let pairs ← Run.ofExcept ((set.mapM parseKv).mapError .core)
    let results ← Run.mapErr .exec (Ql.Engine.execute fuel (commitSource pairs msg))
    pure (.results results)

end

end Epochs.Cli
