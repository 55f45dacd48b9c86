import Epochs.Ql.Parser

/-! The statements of migration files and their parser. -/

namespace Epochs.Ql

open Lib Epochs.Ql.Parser

inductive FieldType where
  | string
  | int
  | bool
  | bytes
  deriving DecidableEq

namespace FieldType

def parse (text : String) : Option FieldType :=
  match Text.upper text with
  | "STRING" => some string
  | "INT" => some int
  | "BOOL" => some bool
  | "BYTES" => some bytes
  | _ => none

def display : FieldType → String
  | string => "STRING"
  | int => "INT"
  | bool => "BOOL"
  | bytes => "BYTES"

end FieldType

inductive DdlStatement where
  | createCollection (name : String) (keys : List (String × FieldType))
  | createIndex (collection path : String) (fieldType : FieldType)
  | dropIndex (collection path : String)
  deriving DecidableEq

namespace DdlParser

section Source

variable (source : List Char)

/-- A name: an identifier, a string literal, or one of four keywords in its spelling. -/
def expectName : Parser String := do
  let token ← current
  match token.kind with
  | .ident name => do
    let _ ← bump
    pure name
  | .string value => do
    let _ ← bump
    pure value
  | .collection | .index | .key | .path => do
    let _ ← bump
    match sliceSource source token.offset token.stop with
    | some text => pure (String.ofList text)
    | none => throw .panic
  | _ => error source "expected identifier"

def pathRest : (fuel : Nat) → (parts : List String) → Parser (List String)
  | 0, _ => throw .fuel
  | fuel + 1, parts => do
    if ← check .dot then do
      let _ ← bump
      let part ← expectName source
      pathRest fuel (parts ++ [part])
    else
      pure parts

def expectPath (fuel : Nat) : Parser String := do
  let part ← expectName source
  let parts ← pathRest source fuel [part]
  pure (Text.join "." parts)

def typeOf : TokenKind → Except String FieldType
  | .tyString => .ok .string
  | .tyInt => .ok .int
  | .tyBool => .ok .bool
  | .tyBytes => .ok .bytes
  | .ident name =>
    match FieldType.parse name with
    | some fieldType => .ok fieldType
    | none => .error s!"unknown type '{name}'"
  | _ => .error "expected STRING, INT, BOOL, or BYTES"

def expectType : Parser FieldType := do
  match typeOf (← kind) with
  | .ok fieldType => do
    let _ ← bump
    pure fieldType
  | .error message => error source message

def parseKeys (budget : Nat) : (fuel : Nat) → (keys : List (String × FieldType))
    → Parser (List (String × FieldType))
  | 0, _ => throw .fuel
  | fuel + 1, keys => do
    let path ← expectPath source budget
    let fieldType ← expectType source
    if ← check .comma then do
      let _ ← bump
      parseKeys budget fuel (keys ++ [(path, fieldType)])
    else
      pure (keys ++ [(path, fieldType)])

def parseCreateCollection (fuel : Nat) : Parser DdlStatement := do
  let _ ← expect source .collection
  let name ← expectName source
  let _ ← expect source .key
  let keys ← parseKeys source fuel fuel []
  pure (.createCollection name keys)

/-- The path after `PATH`: a string literal or names joined by dots. -/
def pathAfterKeyword (fuel : Nat) : Parser String := do
  match ← kind with
  | .string value => do
    let _ ← bump
    pure value
  | _ => expectPath source fuel

def parseCreateIndex (fuel : Nat) : Parser DdlStatement := do
  let _ ← expect source .index
  let _ ← expect source .on
  let collection ← expectName source
  if ← check .lParen then do
    let _ ← bump
    let path ← expectPath source fuel
    let _ ← expect source .rParen
    pure (.createIndex collection path .string)
  else if ← check .path then do
    let _ ← bump
    let path ← pathAfterKeyword source fuel
    let _ ← expect source .typeKw
    let fieldType ← expectType source
    pure (.createIndex collection path fieldType)
  else
    error source "expected (path) or PATH \"…\" TYPE …"

def parseDropIndex (fuel : Nat) : Parser DdlStatement := do
  let _ ← expect source .on
  let collection ← expectName source
  if ← check .lParen then do
    let _ ← bump
    let path ← expectPath source fuel
    let _ ← expect source .rParen
    pure (.dropIndex collection path)
  else if ← check .path then do
    let _ ← bump
    let path ← pathAfterKeyword source fuel
    pure (.dropIndex collection path)
  else
    error source "expected (path) or PATH after DROP INDEX ON"

def parseStatement (fuel : Nat) : Parser DdlStatement := do
  match ← kind with
  | .create => do
    let _ ← bump
    match ← kind with
    | .collection => parseCreateCollection source fuel
    | .index => parseCreateIndex source fuel
    | _ => error source "expected COLLECTION or INDEX after CREATE"
  | .drop => do
    let _ ← bump
    let _ ← expect source .index
    parseDropIndex source fuel
  | _ => error source "expected CREATE or DROP"

def parseStatements (budget : Nat)
    : (fuel : Nat) → (stmts : List DdlStatement) → Parser (List DdlStatement)
  | 0, _ => throw .fuel
  | fuel + 1, stmts => do
    if ← isEof then
      pure stmts
    else if ← check .semicolon then do
      let _ ← bump
      parseStatements budget fuel stmts
    else do
      let stmt ← parseStatement source budget
      skipSemicolon
      parseStatements budget fuel (stmts ++ [stmt])

end Source
end DdlParser

def parseMigration (source : String) : LexResult (List DdlStatement) :=
  Parser.runOn source.toList fun fuel => DdlParser.parseStatements source.toList fuel fuel []

end Epochs.Ql
