import Epochs.Lib.AssocMap
import Epochs.Lib.Binary64
import Epochs.Lib.Fault

/-! The tokenizer of the query language. Offsets count bytes of the source. -/

namespace Epochs.Ql

open Lib

/-- Token kinds: keywords, identifiers and literals, symbols, and the end of the source. -/
inductive TokenKind where
  | use | branch | commit | tag | head | match_ | traverse | mergeBase | shortestPath | ancestors
  | where_ | select | as_ | create | delete | from_ | checkout | merge | into | strategy
  | fastForward | threeWay | squash | diff | and | or | message | parents | path | parent | child
  | ancestor | descendant | null | true_ | false_ | collection | index | key | drop | on | typeKw
  | tyString | tyInt | tyBool | tyBytes
  | ident (name : String)
  | string (value : String)
  | int (value : Int)
  | float (value : Binary64)
  | semicolon | comma | dot | colon | eq | neq | star | dotDot | lParen | rParen | lBrace | rBrace
  | lBracket | rBracket | arrowRight | arrowLeft | minus
  | eof
  deriving DecidableEq

structure Token where
  kind : TokenKind
  offset : Nat
  stop : Nat
  deriving DecidableEq

/-- The message of a parse error. An unexpected token is displayed in the debug format. -/
inductive ParseMessage where
  | text (message : String)
  | expected (kind found : TokenKind)
  deriving DecidableEq

structure ParseError where
  message : ParseMessage
  offset : Option Nat := none
  line : Option Nat := none
  column : Option Nat := none
  deriving DecidableEq

namespace ParseError

def new (message : String) : ParseError := { message := .text message }

def lineColumn : (source : List Char) → (position offset line column : Nat) → Nat × Nat
  | [], _, _, line, column => (line, column)
  | char :: rest, position, offset, line, column =>
    if offset ≤ position then (line, column)
    else if char = '\n' then lineColumn rest (position + char.utf8Size) offset (line + 1) 1
    else lineColumn rest (position + char.utf8Size) offset line (column + 1)

def located (source : List Char) (offset : Nat) (message : ParseMessage) : ParseError :=
  let (line, column) := lineColumn source 0 offset 1 1
  { message, offset := some offset, line := some line, column := some column }

end ParseError

-- Slices of the source

def dropBytes : Nat → List Char → Option (List Char)
  | 0, chars => some chars
  | _ + 1, [] => none
  | count + 1, char :: rest =>
    if char.utf8Size ≤ count + 1 then dropBytes (count + 1 - char.utf8Size) rest else none

def takeBytes : Nat → List Char → Option (List Char)
  | 0, _ => some []
  | _ + 1, [] => none
  | count + 1, char :: rest =>
    if char.utf8Size ≤ count + 1 then
      (takeBytes (count + 1 - char.utf8Size) rest).map (char :: ·)
    else none

/-- The text between two byte offsets; `none` where slicing panics. -/
def sliceSource (source : List Char) (start stop : Nat) : Option (List Char) :=
  if start ≤ stop then (dropBytes start source).bind (takeBytes (stop - start)) else none

-- Tokens

structure LexState where
  offset : Nat
  rest : List Char
  deriving DecidableEq

def skipBlank : (inComment : Bool) → (offset : Nat) → List Char → LexState
  | _, offset, [] => ⟨offset, []⟩
  | true, offset, char :: rest => skipBlank (char ≠ '\n') (offset + char.utf8Size) rest
  | false, offset, '-' :: '-' :: rest => skipBlank true (offset + 2) rest
  | false, offset, char :: rest =>
    if Text.isWhitespace char then skipBlank false (offset + char.utf8Size) rest
    else ⟨offset, char :: rest⟩

def keywords : AssocMap String TokenKind :=
  [("USE", .use), ("BRANCH", .branch), ("COMMIT", .commit), ("TAG", .tag), ("HEAD", .head),
    ("MATCH", .match_), ("TRAVERSE", .traverse), ("MERGE_BASE", .mergeBase),
    ("SHORTEST_PATH", .shortestPath), ("ANCESTORS", .ancestors), ("WHERE", .where_),
    ("SELECT", .select), ("AS", .as_), ("CREATE", .create), ("DELETE", .delete), ("FROM", .from_),
    ("CHECKOUT", .checkout), ("MERGE", .merge), ("INTO", .into), ("STRATEGY", .strategy),
    ("FAST_FORWARD", .fastForward), ("THREE_WAY", .threeWay), ("SQUASH", .squash),
    ("DIFF", .diff), ("AND", .and), ("OR", .or), ("MESSAGE", .message), ("PARENTS", .parents),
    ("PATH", .path), ("PARENT", .parent), ("CHILD", .child), ("ANCESTOR", .ancestor),
    ("DESCENDANT", .descendant), ("NULL", .null), ("TRUE", .true_), ("FALSE", .false_),
    ("COLLECTION", .collection), ("INDEX", .index), ("KEY", .key), ("DROP", .drop), ("ON", .on),
    ("TYPE", .typeKw), ("STRING", .tyString), ("INT", .tyInt), ("BOOL", .tyBool),
    ("BYTES", .tyBytes)]

def keywordOrIdent (text : String) : TokenKind :=
  (AssocMap.lookup (Text.upper text) keywords).getD (.ident text)

def isDigit (char : Char) : Bool := '0' ≤ char ∧ char ≤ '9'

def isAlpha (char : Char) : Bool := ('a' ≤ char ∧ char ≤ 'z') ∨ ('A' ≤ char ∧ char ≤ 'Z')

def startsWord (char : Char) : Bool := isAlpha char ∨ char = '_'

def continuesWord (char : Char) : Bool := isAlpha char ∨ isDigit char ∨ char = '_'

def spanWhile (test : Char → Bool) (state : LexState) : LexState :=
  let taken := state.rest.takeWhile test
  ⟨state.offset + (taken.map Char.utf8Size).sum, state.rest.dropWhile test⟩

def unescape (char : Char) : Char :=
  match char with
  | 'n' => '\n'
  | 't' => '\t'
  | 'r' => '\r'
  | other => other

def lexStringBody
    : (value : List Char) → (offset : Nat) → List Char → Except String (List Char × LexState)
  | _, _, [] => .error "unterminated string literal"
  | value, offset, '"' :: rest => .ok (value, ⟨offset + 1, rest⟩)
  | _, _, ['\\'] => .error "unterminated escape in string"
  | value, offset, '\\' :: char :: rest =>
    lexStringBody (unescape char :: value) (offset + 1 + char.utf8Size) rest
  | value, offset, char :: rest => lexStringBody (char :: value) (offset + char.utf8Size) rest

abbrev LexResult (α : Type) := Except (Fault ParseError) α

section Source

variable (source : List Char)

def lexError {α : Type} (offset : Nat) (message : String) : LexResult α :=
  .error (.err (ParseError.located source offset (.text message)))

def lexSlice (start stop : Nat) : LexResult (List Char) :=
  match sliceSource source start stop with
  | some text => .ok text
  | none => .error .panic

def lexString (offset : Nat) (rest : List Char) : LexResult (Token × LexState) :=
  match lexStringBody [] (offset + 1) rest with
  | .error message => lexError source offset message
  | .ok (value, state) =>
    .ok (⟨.string (String.ofList value.reverse), offset, state.offset⟩, state)

def parseFloat (text : List Char) : Option Binary64 :=
  match Text.splitChars (· = '.') text with
  | [integral, fraction] => Binary64.parse integral fraction
  | _ => none

def lexFloat (offset : Nat) (state : LexState) : LexResult (Token × LexState) := do
  let text ← lexSlice source offset state.offset
  match parseFloat text with
  | some value => .ok (⟨.float value, offset, state.offset⟩, state)
  | none => lexError source offset s!"invalid float literal '{String.ofList text}'"

def lexInt (offset : Nat) (state : LexState) : LexResult (Token × LexState) := do
  let text ← lexSlice source offset state.offset
  match Text.parseI64 (String.ofList text) with
  | some value => .ok (⟨.int value, offset, state.offset⟩, state)
  | none => lexError source offset s!"invalid integer literal '{String.ofList text}'"

/-- Read a number. A point belongs to it only when a digit follows. -/
def lexNumber (start : LexState) : LexResult (Token × LexState) :=
  let state := spanWhile isDigit start
  match state.rest with
  | '.' :: digit :: rest =>
    if isDigit digit then
      lexFloat source start.offset (spanWhile isDigit ⟨state.offset + 1, digit :: rest⟩)
    else
      lexInt source start.offset state
  | _ => lexInt source start.offset state

def lexIdentOrKeyword (start : LexState) : LexResult (Token × LexState) := do
  let state := spanWhile continuesWord start
  let text ← lexSlice source start.offset state.offset
  .ok (⟨keywordOrIdent (String.ofList text), start.offset, state.offset⟩, state)

def symbol (kind : TokenKind) (offset width : Nat) (rest : List Char) : LexResult (Token × LexState) :=
  .ok (⟨kind, offset, offset + width⟩, ⟨offset + width, rest⟩)

def lexToken (offset : Nat) (char : Char) (rest : List Char) : LexResult (Token × LexState) :=
  match char, rest with
  | ';', rest => symbol .semicolon offset 1 rest
  | ',', rest => symbol .comma offset 1 rest
  | ':', rest => symbol .colon offset 1 rest
  | '*', rest => symbol .star offset 1 rest
  | '(', rest => symbol .lParen offset 1 rest
  | ')', rest => symbol .rParen offset 1 rest
  | '{', rest => symbol .lBrace offset 1 rest
  | '}', rest => symbol .rBrace offset 1 rest
  | '[', rest => symbol .lBracket offset 1 rest
  | ']', rest => symbol .rBracket offset 1 rest
  | '=', rest => symbol .eq offset 1 rest
  | '!', '=' :: rest => symbol .neq offset 2 rest
  | '!', _ => lexError source offset "expected '=' after '!'"
  | '.', '.' :: rest => symbol .dotDot offset 2 rest
  | '.', rest => symbol .dot offset 1 rest
  | '-', '>' :: rest => symbol .arrowRight offset 2 rest
  | '-', rest => symbol .minus offset 1 rest
  | '<', '-' :: rest => symbol .arrowLeft offset 2 rest
  | '<', _ => lexError source offset "expected '-' after '<'"
  | '"', rest => lexString source offset rest
  | char, rest =>
    if isDigit char then lexNumber source ⟨offset, char :: rest⟩
    else if startsWord char then lexIdentOrKeyword source ⟨offset, char :: rest⟩
    else lexError source offset s!"unexpected character '{char}'"

def nextToken (state : LexState) : LexResult (Token × LexState) :=
  match skipBlank false state.offset state.rest with
  | ⟨offset, []⟩ => .ok (⟨.eof, offset, offset⟩, ⟨offset, []⟩)
  | ⟨offset, char :: rest⟩ => lexToken source offset char rest

/-- Read tokens up to the end of the source. The budget exceeds the number of characters. -/
def tokenizeFrom : (budget : Nat) → LexState → LexResult (List Token)
  | 0, _ => .error .fuel
  | budget + 1, state => do
    let (token, state) ← nextToken source state
    if token.kind = .eof then
      .ok [token]
    else do
      let tokens ← tokenizeFrom budget state
      .ok (token :: tokens)

def tokenize : LexResult (List Token) := tokenizeFrom source (source.length + 1) ⟨0, source⟩

end Source
end Epochs.Ql
