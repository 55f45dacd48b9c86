import Epochs.Lib.SortedMap
import Epochs.Ql.Ast
import Epochs.Ql.Lexer

/-! The recursive-descent parser of the query language. The state is the list of tokens from the
current one on; the last token stays current. Recursion and loops carry a budget that the
number of tokens bounds.
-/

namespace Epochs.Ql

open Lib

abbrev Parser (α : Type) := Run ParseError (List Token) α

namespace Parser

def current : Parser Token := do
  match ← get with
  | token :: _ => pure token
  | [] => throw .panic

def kind : Parser TokenKind := do
  let token ← current
  pure token.kind

def isEof : Parser Bool := do
  let found ← kind
  pure (found = .eof)

def check (expected : TokenKind) : Parser Bool := do
  let found ← kind
  pure (found = expected)

def bump : Parser Token := do
  match ← get with
  | [] => throw .panic
  | [last] => pure last
  | token :: rest => do
    set rest
    pure token

def looksLikeIdent : TokenKind → Bool
  | .string _ | .int _ | .float _ => false
  | .semicolon | .comma | .dot | .colon | .eq | .neq | .star | .dotDot | .lParen | .rParen
  | .lBrace | .rBrace | .lBracket | .rBracket | .arrowRight | .arrowLeft | .minus | .eof => false
  | _ => true

def canStartStatement : TokenKind → Bool
  | .use | .match_ | .traverse | .where_ | .select | .commit | .create | .delete | .checkout
  | .merge | .diff => true
  | _ => false

section Source

variable (source : List Char)

def failWith {α : Type} (message : ParseMessage) : Parser α := do
  let token ← current
  Run.fail (ParseError.located source token.offset message)

def error {α : Type} (message : String) : Parser α := failWith source (.text message)

def expect (expected : TokenKind) : Parser Token := do
  let found ← kind
  if found = expected then bump else failWith source (.expected expected found)

def expectIdentOrKeywordAsIdent : Parser String := do
  let token ← current
  if !looksLikeIdent token.kind then
    error source "expected identifier"
  else do
    let _ ← bump
    match sliceSource source token.offset token.stop with
    | some text => pure (String.ofList text)
    | none => throw .panic

def expectIdent : Parser String := expectIdentOrKeywordAsIdent source

def expectString : Parser String := do
  match ← kind with
  | .string value => do
    let _ ← bump
    pure value
  | _ => error source "expected string literal"

def expectName : Parser String := do
  match ← kind with
  | .string _ => expectString source
  | _ => expectIdent source

def expectU32 : Parser Nat := do
  match ← kind with
  | .int value =>
    if 0 ≤ value ∧ value < 2 ^ 32 then do
      let _ ← bump
      pure value.toNat
    else
      error source "expected non-negative integer"
  | _ => error source "expected non-negative integer"

def atInt : Parser Bool := do
  match ← kind with
  | .int _ => pure true
  | _ => pure false

def isHexDigit (char : Char) : Bool :=
  isDigit char ∨ ('a' ≤ char ∧ char ≤ 'f') ∨ ('A' ≤ char ∧ char ≤ 'F')

def validateHexHash (text : String) : Option String :=
  if text = "" then
    some "commit hash must not be empty"
  else if 64 < Text.len text then
    some s!"commit hash too long ({Text.len text} chars, max 64)"
  else if !text.toList.all isHexDigit then
    some s!"commit hash must be hexadecimal, got '{text}'"
  else
    none

def targetName (message : String) : Parser String := do
  match ← kind with
  | .ident _ => expectIdent source
  | .string _ => expectString source
  | _ => error source message

def parseTargetRef : Parser TargetRef := do
  match ← kind with
  | .head => do
    let _ ← bump
    pure .head
  | .branch => do
    let _ ← bump
    let name ← targetName source "expected branch name after BRANCH"
    pure (.branch name)
  | .commit => do
    let _ ← bump
    let hex ← expectString source
    match validateHexHash hex with
    | some message => error source message
    | none => pure (.commit hex)
  | .tag => do
    let _ ← bump
    let name ← targetName source "expected tag name after TAG"
    pure (.tag name)
  | _ => error source "expected HEAD, BRANCH, COMMIT, or TAG"

-- Expressions

def parseNegative : Parser Expression := do
  match ← kind with
  | .int value => do
    let _ ← bump
    pure (.int (-value))
  | .float value => do
    let _ ← bump
    pure (.float value.neg)
  | _ => error source "expected number after '-'"

def equalityOp : TokenKind → Option BinaryOp
  | .eq => some .eq
  | .neq => some .neq
  | _ => none

mutual

def parseOr : (fuel : Nat) → Parser Expression
  | 0 => throw .fuel
  | fuel + 1 => do
    let left ← parseAnd fuel
    orRest fuel left

def orRest : (fuel : Nat) → (left : Expression) → Parser Expression
  | 0, _ => throw .fuel
  | fuel + 1, left => do
    if ← check .or then do
      let _ ← bump
      let right ← parseAnd fuel
      orRest fuel (.binary left .or right)
    else
      pure left

def parseAnd : (fuel : Nat) → Parser Expression
  | 0 => throw .fuel
  | fuel + 1 => do
    let left ← parseEquality fuel
    andRest fuel left

def andRest : (fuel : Nat) → (left : Expression) → Parser Expression
  | 0, _ => throw .fuel
  | fuel + 1, left => do
    if ← check .and then do
      let _ ← bump
      let right ← parseEquality fuel
      andRest fuel (.binary left .and right)
    else
      pure left

def parseEquality : (fuel : Nat) → Parser Expression
  | 0 => throw .fuel
  | fuel + 1 => do
    let left ← parsePostfix fuel
    equalityRest fuel left

def equalityRest : (fuel : Nat) → (left : Expression) → Parser Expression
  | 0, _ => throw .fuel
  | fuel + 1, left => do
    match equalityOp (← kind) with
    | some op => do
      let _ ← bump
      let right ← parsePostfix fuel
      equalityRest fuel (.binary left op right)
    | none => pure left

def parsePostfix : (fuel : Nat) → Parser Expression
  | 0 => throw .fuel
  | fuel + 1 => do
    let object ← parsePrimary fuel
    postfixRest fuel object

def postfixRest : (fuel : Nat) → (object : Expression) → Parser Expression
  | 0, _ => throw .fuel
  | fuel + 1, object => do
    if ← check .dot then do
      let _ ← bump
      let property ← expectIdentOrKeywordAsIdent source
      postfixRest fuel (.propertyAccess object property)
    else
      pure object

def parsePrimary : (fuel : Nat) → Parser Expression
  | 0 => throw .fuel
  | fuel + 1 => do
    match ← kind with
    | .null => do
      let _ ← bump
      pure .null
    | .true_ => do
      let _ ← bump
      pure (.bool true)
    | .false_ => do
      let _ ← bump
      pure (.bool false)
    | .int value => do
      let _ ← bump
      pure (.int value)
    | .float value => do
      let _ ← bump
      pure (.float value)
    | .string value => do
      let _ ← bump
      pure (.string value)
    | .lBrace => do
      let entries ← parseMapLiteral fuel
      pure (.map entries)
    | .lParen => do
      let _ ← bump
      let inner ← parseOr fuel
      let _ ← expect source .rParen
      pure inner
    | .minus => do
      let _ ← bump
      parseNegative source
    | found =>
      if looksLikeIdent found then do
        let name ← expectIdent source
        pure (.var name)
      else
        error source "expected expression"

def parseMapLiteral : (fuel : Nat) → Parser (List (String × Expression))
  | 0 => throw .fuel
  | fuel + 1 => do
    let _ ← expect source .lBrace
    if ← check .rBrace then do
      let _ ← expect source .rBrace
      pure []
    else do
      let entries ← mapEntries fuel []
      let _ ← expect source .rBrace
      pure entries

def mapEntries : (fuel : Nat) → (entries : List (String × Expression))
    → Parser (List (String × Expression))
  | 0, _ => throw .fuel
  | fuel + 1, entries => do
    let key ← expectIdentOrKeywordAsIdent source
    let _ ← expect source .colon
    let value ← parseOr fuel
    let entries := SortedMap.insertEntry key value entries
    if ← check .comma then do
      let _ ← bump
      mapEntries fuel entries
    else
      pure entries

end

def parseExpression (fuel : Nat) : Parser Expression := parseOr source fuel

-- Version statements

def parseTargets : (fuel : Nat) → (list : List TargetRef) → Parser (List TargetRef)
  | 0, _ => throw .fuel
  | fuel + 1, list => do
    let target ← parseTargetRef source
    if ← check .comma then do
      let _ ← bump
      parseTargets fuel (list ++ [target])
    else
      pure (list ++ [target])

def parseParents (fuel : Nat) : Parser (List TargetRef) := do
  let _ ← expect source .lBracket
  if ← check .rBracket then do
    let _ ← expect source .rBracket
    pure []
  else do
    let list ← parseTargets source fuel []
    let _ ← expect source .rBracket
    pure list

/-- `MESSAGE` and `PARENTS` in any order and number; the last of each counts. -/
def commitClauses : (fuel : Nat) → (message : Option String) → (parents : Option (List TargetRef))
    → Parser (Option String × Option (List TargetRef))
  | 0, _, _ => throw .fuel
  | fuel + 1, message, parents => do
    match ← kind with
    | .message => do
      let _ ← bump
      let text ← expectString source
      commitClauses fuel (some text) parents
    | .parents => do
      let _ ← bump
      let list ← parseParents source fuel
      commitClauses fuel message (some list)
    | _ => pure (message, parents)

def parseCommitStmt (fuel : Nat) : Parser CommitStmt := do
  let _ ← expect source .commit
  let payload ← parseMapLiteral source fuel
  let (message, parents) ← commitClauses source fuel none none
  pure { payload, message, parents }

def parseFrom : Parser (Option TargetRef) := do
  if ← check .from_ then do
    let _ ← bump
    let target ← parseTargetRef source
    pure (some target)
  else
    pure none

def parseBranchStmt : Parser BranchStmt := do
  match ← kind with
  | .create => do
    let _ ← bump
    let _ ← expect source .branch
    let name ← expectName source
    let start ← parseFrom source
    pure (.create name start)
  | .delete => do
    let _ ← bump
    let _ ← expect source .branch
    let name ← expectName source
    pure (.delete name)
  | _ => error source "expected CREATE or DELETE BRANCH"

def parseStrategy : Parser MergeStrategy := do
  if ← check .strategy then do
    let _ ← bump
    match ← kind with
    | .fastForward => do
      let _ ← bump
      pure .fastForward
    | .threeWay => do
      let _ ← bump
      pure .threeWay
    | .squash => do
      let _ ← bump
      pure .squash
    | _ => error source "expected FAST_FORWARD, THREE_WAY, or SQUASH merge strategy"
  else
    pure .fastForward

def parseMergeStmt : Parser MergeStmt := do
  let _ ← expect source .merge
  let from_ ← parseTargetRef source
  let _ ← expect source .into
  let into ← parseTargetRef source
  let strategy ← parseStrategy source
  pure { source := from_, into, strategy }

def parsePath : Parser (Option String) := do
  if ← check .path then do
    let _ ← bump
    let path ← expectString source
    pure (some path)
  else
    pure none

def parseDiffStmt : Parser DiffStmt := do
  let _ ← expect source .diff
  let left ← parseTargetRef source
  let _ ← expect source .and
  let right ← parseTargetRef source
  let path ← parsePath source
  pure { left, right, path }

def parseVersionStatement (fuel : Nat) : Parser VersionStatement := do
  match ← kind with
  | .commit => do
    let stmt ← parseCommitStmt source fuel
    pure (.commit stmt)
  | .create | .delete => do
    let stmt ← parseBranchStmt source
    pure (.branch stmt)
  | .checkout => do
    let _ ← bump
    let target ← parseTargetRef source
    pure (.checkout target)
  | .merge => do
    let stmt ← parseMergeStmt source
    pure (.merge stmt)
  | .diff => do
    let stmt ← parseDiffStmt source
    pure (.diff stmt)
  | _ => error source "expected version statement"

-- Query statements

def parseNodeVar : Parser (Option String) := do
  if looksLikeIdent (← kind) then do
    let name ← expectIdent source
    pure (some name)
  else
    pure none

def parseNodeLabel : Parser (Option String) := do
  if ← check .colon then do
    let _ ← bump
    let label ← expectIdentOrKeywordAsIdent source
    pure (some label)
  else
    pure none

def parseNodeProperties (fuel : Nat) : Parser (List (String × Expression)) := do
  if ← check .lBrace then parseMapLiteral source fuel else pure []

def parseNodePattern (fuel : Nat) : Parser NodePattern := do
  let _ ← expect source .lParen
  let var ← parseNodeVar source
  let label ← parseNodeLabel source
  let properties ← parseNodeProperties source fuel
  let _ ← expect source .rParen
  pure { var, label, properties }

def edgeTypeOf : TokenKind → Option EdgeType
  | .parent => some .parent
  | .child => some .child
  | .ancestor => some .ancestor
  | .descendant => some .descendant
  | _ => none

def parseEdgeType : Parser EdgeType := do
  match edgeTypeOf (← kind) with
  | some edgeType => do
    let _ ← bump
    pure edgeType
  | none => error source "expected PARENT, CHILD, ANCESTOR, or DESCENDANT"

def parseUpperBound : Parser (Option Nat) := do
  if ← atInt then do
    let bound ← expectU32 source
    pure (some bound)
  else
    pure none

def parseHopMultiplier : Parser HopMultiplier := do
  let _ ← expect source .star
  if ← atInt then do
    let first ← expectU32 source
    if ← check .dotDot then do
      let _ ← bump
      let bound ← parseUpperBound source
      pure (.range (some first) bound)
    else
      pure (.exact first)
  else if ← check .dotDot then do
    let _ ← bump
    match ← parseUpperBound source with
    | some bound => pure (.range none (some bound))
    | none => pure .any
  else
    pure .any

def parseEdgeBodyType : Parser (Option EdgeType) := do
  if ← check .colon then do
    let _ ← bump
    let edgeType ← parseEdgeType source
    pure (some edgeType)
  else if (edgeTypeOf (← kind)).isSome then do
    let edgeType ← parseEdgeType source
    pure (some edgeType)
  else
    pure none

def parseEdgeBody : Parser (Option EdgeType × Option HopMultiplier) := do
  let edgeType ← parseEdgeBodyType source
  if ← check .star then do
    let multiplier ← parseHopMultiplier source
    pure (edgeType, some multiplier)
  else
    pure (edgeType, none)

def parseIncomingBracket : Parser EdgePattern := do
  let _ ← expect source .lBracket
  let (edgeType, multiplier) ← parseEdgeBody source
  let _ ← expect source .rBracket
  let _ ← expect source .minus
  pure { direction := .incoming, edgeType := edgeType.getD .parent, multiplier }

def parseEdgePattern : Parser EdgePattern := do
  match ← kind with
  | .arrowRight => do
    let _ ← bump
    pure { direction := .outgoing, edgeType := .child, multiplier := none }
  | .arrowLeft => do
    let _ ← bump
    if ← check .lBracket then
      parseIncomingBracket source
    else
      pure { direction := .incoming, edgeType := .parent, multiplier := none }
  | .minus => do
    let _ ← bump
    let _ ← expect source .lBracket
    let (edgeType, multiplier) ← parseEdgeBody source
    let _ ← expect source .rBracket
    let _ ← expect source .arrowRight
    pure { direction := .outgoing, edgeType := edgeType.getD .child, multiplier }
  | _ => error source "expected edge pattern (->, <-, -[...]->, or <-[...]-)"

def isEdgeStart : TokenKind → Bool
  | .arrowRight | .arrowLeft | .minus => true
  | _ => false

def patternRest (budget : Nat) : (fuel : Nat) → (elements : List PatternElement)
    → Parser (List PatternElement)
  | 0, _ => throw .fuel
  | fuel + 1, elements => do
    if isEdgeStart (← kind) then do
      let edge ← parseEdgePattern source
      let node ← parseNodePattern source budget
      patternRest budget fuel (elements ++ [.edge edge, .node node])
    else
      pure elements

def parsePattern (fuel : Nat) : Parser Pattern := do
  let node ← parseNodePattern source fuel
  let elements ← patternRest source fuel fuel [.node node]
  pure { elements }

def patternsRest (budget : Nat) : (fuel : Nat) → (patterns : List Pattern) → Parser (List Pattern)
  | 0, _ => throw .fuel
  | fuel + 1, patterns => do
    if ← check .comma then do
      let _ ← bump
      let pattern ← parsePattern source budget
      patternsRest budget fuel (patterns ++ [pattern])
    else
      pure patterns

def parseMatchClause (fuel : Nat) : Parser MatchClause := do
  let _ ← expect source .match_
  let pattern ← parsePattern source fuel
  let patterns ← patternsRest source fuel fuel [pattern]
  pure { patterns }

def parseTraversalClause : Parser TraversalClause := do
  let _ ← expect source .traverse
  match ← kind with
  | .mergeBase => do
    let _ ← bump
    let _ ← expect source .lParen
    let first ← parseTargetRef source
    let _ ← expect source .comma
    let second ← parseTargetRef source
    let _ ← expect source .rParen
    pure (.mergeBase first second)
  | .shortestPath => do
    let _ ← bump
    let _ ← expect source .lParen
    let first ← parseTargetRef source
    let _ ← expect source .comma
    let second ← parseTargetRef source
    let _ ← expect source .rParen
    pure (.shortestPath first second)
  | .ancestors => do
    let _ ← bump
    let _ ← expect source .lParen
    let start ← parseTargetRef source
    let _ ← expect source .rParen
    pure (.ancestors start)
  | _ => error source "expected MERGE_BASE, SHORTEST_PATH, or ANCESTORS after TRAVERSE"

def parseAlias : Parser (Option String) := do
  if ← check .as_ then do
    let _ ← bump
    let name ← expectIdent source
    pure (some name)
  else
    pure none

def parseProjectionItem (fuel : Nat) : Parser ProjectionItem := do
  let expression ← parseExpression source fuel
  let alias_ ← parseAlias source
  pure { expression, alias_ }

def itemsRest (budget : Nat)
    : (fuel : Nat) → (items : List ProjectionItem) → Parser (List ProjectionItem)
  | 0, _ => throw .fuel
  | fuel + 1, items => do
    if ← check .comma then do
      let _ ← bump
      let item ← parseProjectionItem source budget
      itemsRest budget fuel (items ++ [item])
    else
      pure items

def parseSelectClause (fuel : Nat) : Parser SelectClause := do
  let _ ← expect source .select
  let item ← parseProjectionItem source fuel
  let items ← itemsRest source fuel fuel [item]
  pure { items }

def optionally {α : Type} (start : TokenKind) (clause : Parser α) : Parser (Option α) := do
  if ← check start then do
    let found ← clause
    pure (some found)
  else
    pure none

def parseContextClause : Parser ContextClause := do
  let _ ← bump
  let target ← parseTargetRef source
  pure { target }

def parseWhereClause (fuel : Nat) : Parser Expression := do
  let _ ← bump
  parseExpression source fuel

def parseQueryStatement (fuel : Nat) : Parser QueryStatement := do
  let context ← optionally .use (parseContextClause source)
  let matchClause ← optionally .match_ (parseMatchClause source fuel)
  let traversal ← optionally .traverse (parseTraversalClause source)
  let whereClause ← optionally .where_ (parseWhereClause source fuel)
  let select ← optionally .select (parseSelectClause source fuel)
  if context.isNone ∧ matchClause.isNone ∧ traversal.isNone ∧ whereClause.isNone
      ∧ select.isNone then
    error source "expected query clause (USE, MATCH, TRAVERSE, WHERE, or SELECT)"
  else
    pure { context, matchClause, traversal, whereClause, select }

-- Statements and scripts

def parseStatement (fuel : Nat) : Parser Statement := do
  match ← kind with
  | .commit | .create | .delete | .checkout | .merge | .diff => do
    let statement ← parseVersionStatement source fuel
    pure (.version statement)
  | _ => do
    let query ← parseQueryStatement source fuel
    pure (.query query)

def skipSemicolon : Parser Unit := do
  if ← check .semicolon then do
    let _ ← bump
    pure ()
  else
    pure ()

def expectEofOrSemicolon : Parser Unit := do
  skipSemicolon
  if !(← isEof) then error source "unexpected tokens after statement" else pure ()

def parseStatements (budget : Nat)
    : (fuel : Nat) → (stmts : List Statement) → Parser (List Statement)
  | 0, _ => throw .fuel
  | fuel + 1, stmts => do
    if ← isEof then
      pure stmts
    else do
      let stmt ← parseStatement source budget
      skipSemicolon
      if ← isEof then
        pure (stmts ++ [stmt])
      else if !canStartStatement (← kind) then
        error source "expected statement or end of input"
      else
        parseStatements budget fuel (stmts ++ [stmt])

def budgetFor (tokens : List Token) : Nat := 8 * tokens.length + 8

def runOn {α : Type} (parser : Nat → Parser α) : LexResult α :=
  match tokenize source with
  | .error fault => .error fault
  | .ok tokens =>
    match parser (budgetFor tokens) tokens with
    | .ok value _ => .ok value
    | .error fault _ => .error fault

end Source
end Parser

def parse (source : String) : LexResult Statement :=
  Parser.runOn source.toList fun fuel => do
    let stmt ← Parser.parseStatement source.toList fuel
    Parser.expectEofOrSemicolon source.toList
    pure stmt

def parseScript (source : String) : LexResult (List Statement) :=
  Parser.runOn source.toList fun fuel => Parser.parseStatements source.toList fuel fuel []

end Epochs.Ql
