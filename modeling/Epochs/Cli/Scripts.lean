import Epochs.Cli.Commit
import Epochs.Ql.Spelling

/-! The statement the commit command builds from its assignments. Values and the message are escaped,
keys are not, so the statement means what was given exactly if every key is a word.
-/

namespace Epochs.Cli

open Lib Ql

-- The tokens of the statement

/-- Escaping writes a text so that a string literal stands for it. -/
theorem quotes_escape (text : String) : Quotes text.toList (escape text).toList := by
  rw [escape, String.toList_ofList]
  induction text.toList with
  | nil => exact .nil
  | cons char rest ih =>
    rw [List.flatMap_cons]
    split
    · rename_i special
      have same : unescape char = char := by
        rcases special with rfl | rfl <;> rfl
      have quotes := @Quotes.escaped char _ _ ih
      rwa [same] at quotes
    · rename_i plain
      rw [not_or] at plain
      exact .plain plain.2 plain.1 ih

def entryText (pair : String × String) : String := pair.1 ++ ": \"" ++ escape pair.2 ++ "\""

def keyLexeme (key : String) : Lexeme := (keywordOrIdent key, key.toList)

def stringLexeme (text : String) : Lexeme := (.string text, '"' :: (escape text).toList ++ ['"'])

def entryLexemes (pair : String × String) : List Lexeme :=
  [keyLexeme pair.1, (.colon, [':']), stringLexeme pair.2]

def entriesLexemes : List (String × String) → List Lexeme
  | [] => []
  | [last] => entryLexemes last
  | first :: second :: rest =>
    entryLexemes first ++ (.comma, [',']) :: entriesLexemes (second :: rest)

def commitLexemes (pairs : List (String × String)) (message : String) : List Lexeme :=
  keyLexeme "COMMIT" :: (.lBrace, ['\x7b']) :: entriesLexemes pairs
    ++ [(.rBrace, ['\x7d']), keyLexeme "MESSAGE", stringLexeme message, (.semicolon, [';']), (.eof, [])]

section Reads

variable {source rest : List Char} {lexemes : List Lexeme}

theorem reads_word {word : String} (isWord : isWord word.toList) (ends : endsWord rest)
    (later : Reads source rest lexemes)
    : Reads source (word.toList ++ rest) (keyLexeme word :: lexemes) := by
  have reads := Reads.word isWord ends later
  rwa [String.ofList_toList] at reads

theorem reads_string (text : String) (later : Reads source rest lexemes)
    : Reads source ('"' :: ((escape text).toList ++ '"' :: rest)) (stringLexeme text :: lexemes) := by
  have reads := Reads.string (quotes_escape text) later
  rwa [String.ofList_toList] at reads

theorem reads_blank (later : Reads source rest lexemes) : Reads source (' ' :: rest) lexemes :=
  later.blank (by decide)

theorem reads_symbol {char : Char} {kind : TokenKind}
    (alone : ∀ source offset rest, lexToken source offset char rest = symbol kind offset 1 rest)
    (visible : Text.isWhitespace char = false ∧ char ≠ '-' ∧ char.utf8Size = 1)
    (plain : kind ≠ .eof ∧ (∀ value, kind ≠ .int value) ∧ ¬ Parser.looksLikeIdent kind)
    (later : Reads source rest lexemes)
    : Reads source (char :: rest) ((kind, [char]) :: lexemes) :=
  later.symbol alone (isVisible_cons.mpr ⟨visible.1, fun _ dash _ => visible.2.1 dash⟩) visible.2.2 plain

theorem reads_entry {pair : String × String} (isWord : isWord pair.1.toList)
    (later : Reads source rest lexemes)
    : Reads source ((entryText pair).toList ++ rest) (entryLexemes pair ++ lexemes) := by
  have text : (entryText pair).toList ++ rest
      = pair.1.toList ++ ':' :: ' ' :: '"' :: ((escape pair.2).toList ++ '"' :: rest) := by
    simp [entryText]
  rw [text]
  refine reads_word isWord rfl (reads_symbol (fun _ _ _ => rfl) (by decide) ⟨nofun, nofun, nofun⟩ ?_)
  exact reads_blank (reads_string pair.2 later)

theorem reads_entries {pairs : List (String × String)} (words : ∀ pair ∈ pairs, isWord pair.1.toList)
    (later : Reads source rest lexemes)
    : Reads source ((Text.join ", " (pairs.map entryText)).toList ++ rest)
        (entriesLexemes pairs ++ lexemes) := by
  induction pairs with
  | nil => exact later
  | cons pair others ih =>
    obtain ⟨word, words⟩ := List.forall_mem_cons.mp words
    cases others with
    | nil => exact reads_entry word later
    | cons second others =>
      have text : (Text.join ", " ((pair :: second :: others).map entryText)).toList ++ rest
          = (entryText pair).toList
            ++ ',' :: ' ' :: ((Text.join ", " ((second :: others).map entryText)).toList
              ++ rest) := by
        simp [Text.join]
      rw [text, entriesLexemes, List.append_assoc, List.cons_append]
      refine reads_entry word (reads_symbol (fun _ _ _ => rfl) (by decide) ⟨by simp, by simp, by decide⟩ ?_)
      exact reads_blank (ih words)

theorem reads_commitSource {pairs : List (String × String)}
    (words : ∀ pair ∈ pairs, isWord pair.1.toList) (message : String)
    : Reads source (commitSource pairs message).toList (commitLexemes pairs message) := by
  have text : (commitSource pairs message).toList
      = "COMMIT".toList ++ ' ' :: '\x7b' :: ' ' :: ((Text.join ", " (pairs.map entryText)).toList
        ++ ' ' :: '\x7d' :: ' ' :: ("MESSAGE".toList
          ++ ' ' :: '"' :: ((escape message).toList ++ '"' :: [';']))) := by
    have source : commitSource pairs message
        = "COMMIT \x7b " ++ Text.join ", " (pairs.map entryText)
          ++ " \x7d MESSAGE \"" ++ escape message ++ "\";" := rfl
    rw [source]
    simp
  rw [text, commitLexemes]
  refine reads_word (by decide) rfl (reads_blank (reads_symbol (fun _ _ _ => rfl) (by decide) ⟨nofun, nofun, nofun⟩ ?_))
  refine reads_blank (reads_entries words (reads_blank ?_))
  refine reads_symbol (fun _ _ _ => rfl) (by decide) ⟨nofun, nofun, nofun⟩ (reads_blank (reads_word (by decide) rfl ?_))
  refine reads_blank (reads_string message (reads_symbol (fun _ _ _ => rfl) (by decide) ⟨nofun, nofun, nofun⟩ ?_))
  exact Reads.nil

end Reads

-- The commit the statement is

def payloadOf (pairs : List (String × String)) (entries : List (String × Expression))
    : List (String × Expression) :=
  pairs.foldl (fun entries pair => SortedMap.insertEntry pair.1 (.string pair.2) entries) entries

section Parses

variable {source : List Char} {rest : List Lexeme}

theorem parses_key {key : String} {second : Lexeme}
    : Parses source (Parser.expectIdentOrKeywordAsIdent source) (keyLexeme key :: second :: rest) key
        (second :: rest) := by
  have parses := @Parses.expectIdentOrKeywordAsIdent source rest (keyLexeme key) second
    (looksLikeIdent_keywordOrIdent key)
  rwa [keyLexeme, String.ofList_toList] at parses

theorem parses_mapEntries {pairs : List (String × String)} (nonempty : pairs ≠ []) (fuel : Nat)
    (entries : List (String × Expression)) (closing : List Char)
    : Parses source (Parser.mapEntries source (fuel + pairs.length + 5) entries)
        (entriesLexemes pairs ++ (.rBrace, closing) :: rest) (payloadOf pairs entries)
        ((.rBrace, closing) :: rest) := by
  induction pairs generalizing fuel entries with
  | nil => exact absurd rfl nonempty
  | cons pair others ih =>
    have value (follow : Lexeme) (after : List Lexeme)
        (ends : Parses.endsExpression follow.1)
        : Parses source (Parser.parseOr source (fuel + others.length + 5))
            (stringLexeme pair.2 :: follow :: after) (.string pair.2) (follow :: after) :=
      Parses.parsePrimary_string.parseOr_of_parsePrimary ends
    cases others with
    | nil =>
      refine parses_key.bind (Parses.expect rfl ((value _ _ rfl).bind ?_))
      exact Parses.check_neg (by simp) (Parses.pure _)
    | cons second others =>
      rw [entriesLexemes, List.append_assoc, List.cons_append]
      have split : ∃ head tail, entriesLexemes (second :: others) ++ (.rBrace, closing) :: rest
          = head :: tail := by
        cases others <;> exact ⟨_, _, rfl⟩
      obtain ⟨head, tail, same⟩ := split
      refine parses_key.bind (Parses.expect rfl ((value _ _ rfl).bind ?_))
      rw [same]
      refine Parses.check_pos rfl (Parses.bump ?_)
      rw [← same]
      exact ih (List.cons_ne_nil _ _) fuel _

theorem parses_mapLiteral (pairs : List (String × String)) (fuel : Nat) (second : Lexeme)
    (opening closing : List Char)
    : Parses source (Parser.parseMapLiteral source (fuel + pairs.length + 6))
        ((.lBrace, opening) :: entriesLexemes pairs ++ (.rBrace, closing) :: second :: rest)
        (payloadOf pairs []) (second :: rest) := by
  cases pairs with
  | nil =>
    refine Parses.expect rfl (Parses.check_pos rfl (Parses.expect rfl ?_))
    exact Parses.pure _
  | cons pair others =>
    have split : ∃ tail, entriesLexemes (pair :: others) ++ (.rBrace, closing) :: second :: rest
        = keyLexeme pair.1 :: tail := by
      cases others <;> exact ⟨_, rfl⟩
    obtain ⟨tail, same⟩ := split
    have noBrace : (keyLexeme pair.1).1 ≠ .rBrace := by
      intro brace
      have looks := looksLikeIdent_keywordOrIdent pair.1
      rw [show keywordOrIdent pair.1 = .rBrace from brace] at looks
      cases looks
    rw [List.cons_append, same]
    refine Parses.expect rfl (Parses.check_neg noBrace ?_)
    rw [← same]
    refine (parses_mapEntries (List.cons_ne_nil _ _) fuel [] closing).bind ?_
    exact Parses.expect rfl (Parses.pure _)

def commitOf (pairs : List (String × String)) (message : String) : CommitStmt :=
  { payload := payloadOf pairs [], message := some message, parents := none }

theorem parses_statement (pairs : List (String × String)) (message : String) (fuel : Nat)
    : Parses source (Parser.parseStatement source (fuel + pairs.length + 6))
        (commitLexemes pairs message) (.version (.commit (commitOf pairs message)))
        [(.semicolon, [';']), (.eof, [])] := by
  have commit : Parses source (Parser.parseCommitStmt source (fuel + pairs.length + 6))
      (commitLexemes pairs message) (commitOf pairs message) [(.semicolon, [';']), (.eof, [])] := by
    have clauses : Parses source (Parser.commitClauses source (fuel + pairs.length + 6) none none)
        [keyLexeme "MESSAGE", stringLexeme message, (.semicolon, [';']), (.eof, [])]
        (some message, none) [(.semicolon, [';']), (.eof, [])] := by
      refine Parses.kind.bind (Parses.bump (Parses.expectString.bind (Parses.kind.bind ?_)))
      exact Parses.pure _
    exact Parses.expect rfl ((parses_mapLiteral pairs fuel _ _ _).bind (clauses.bind (Parses.pure _)))
  have version : Parses source (Parser.parseVersionStatement source (fuel + pairs.length + 6))
      (commitLexemes pairs message) (.commit (commitOf pairs message))
      [(.semicolon, [';']), (.eof, [])] := by
    refine Parses.kind.bind ?_
    exact commit.bind (Parses.pure _)
  refine Parses.kind.bind ?_
  exact version.bind (Parses.pure _)

theorem parses_script (pairs : List (String × String)) (message : String) (fuel steps : Nat)
    : Parses source (Parser.parseStatements source (fuel + pairs.length + 6) (steps + 1) [])
        (commitLexemes pairs message) [.version (.commit (commitOf pairs message))] [(.eof, [])] := by
  refine Parses.isEof.bind ((parses_statement pairs message fuel).bind ?_)
  refine Parses.bind (Parses.check_pos rfl (Parses.bump (Parses.pure ()))) (Parses.isEof.bind ?_)
  exact Parses.pure _

end Parses

variable {pairs : List (String × String)} {message : String}

theorem length_le_entriesLexemes (pairs : List (String × String))
    : pairs.length ≤ (entriesLexemes pairs).length := by
  induction pairs with
  | nil => exact Nat.le_refl _
  | cons pair others ih =>
    cases others with
    | nil => simp [entriesLexemes, entryLexemes]
    | cons second others =>
      simp only [entriesLexemes, entryLexemes, List.length_cons, List.length_append,
        List.length_nil] at ih ⊢
      omega

/-- With words as keys the statement is the commit that is given. -/
theorem parseScript_commitSource (words : ∀ pair ∈ pairs, isWord pair.1.toList)
    : parseScript (commitSource pairs message) = .ok [.version (.commit (commitOf pairs message))] := by
  obtain ⟨tokens, tokenized, bears⟩ := (reads_commitSource words message).tokenize
  have budget : ∃ fuel, Parser.budgetFor tokens = fuel + pairs.length + 6 := by
    have long := length_le_entriesLexemes pairs
    have length := bears.length_eq
    rw [commitLexemes, List.length_append, List.length_cons, List.length_cons] at length
    exact ⟨Parser.budgetFor tokens - pairs.length - 6, by unfold Parser.budgetFor; omega⟩
  obtain ⟨fuel, enough⟩ := budget
  obtain ⟨left, ran, -⟩ := parses_script pairs message fuel (fuel + pairs.length + 5) tokens bears
  rw [parseScript, Parser.runOn, tokenized]
  dsimp only
  rw [enough, ran]

-- When the statement means what is given

def lastValue (pairs : List (String × String)) (key : String) : Option String :=
  pairs.foldl (fun found pair => if pair.1 = key then some pair.2 else found) none

/-- A commit with the given message whose payload maps each given key to the string given last. -/
structure Commits (pairs : List (String × String)) (message : String) (stmt : CommitStmt) : Prop where
  payload : ∀ key, AssocMap.lookup key stmt.payload = (lastValue pairs key).map .string
  message : stmt.message = some message
  parents : stmt.parents = none

theorem lookup_payloadOf (key : String) {entries : List (String × Expression)} {found : Option String}
    (before : AssocMap.lookup key entries = found.map .string)
    : AssocMap.lookup key (payloadOf pairs entries)
      = (pairs.foldl (fun found pair => if pair.1 = key then some pair.2 else found) found).map
          .string := by
  induction pairs generalizing entries found with
  | nil => exact before
  | cons pair others ih =>
    refine ih ?_
    rw [SortedMap.lookup_insertEntry]
    by_cases same : pair.1 = key
    · simp only [if_pos same, Option.map_some]
    · simpa only [if_neg same] using before

theorem commits_commitOf (pairs : List (String × String)) (message : String)
    : Commits pairs message (commitOf pairs message) :=
  ⟨fun key => lookup_payloadOf key rfl, rfl, rfl⟩

theorem lastValue_isSome {pair : String × String} (member : pair ∈ pairs)
    : ∃ value, lastValue pairs pair.1 = some value := by
  have go (found : Option String) (later : (∃ value, found = some value) ∨ pair ∈ pairs)
      : ∃ value, pairs.foldl (fun found other => if other.1 = pair.1 then some other.2 else found) found
        = some value := by
    clear member
    induction pairs generalizing found with
    | nil => simpa using later
    | cons other others ih =>
      refine ih _ ?_
      by_cases same : other.1 = pair.1
      · exact .inl ⟨other.2, if_pos same⟩
      · simp only [if_neg same]
        refine later.imp_right fun member => (List.mem_cons.mp member).resolve_left ?_
        rintro rfl
        exact same rfl
  exact go none (.inr member)

/-- The statement that is built from assignments and a message is a single commit of them exactly if
every key is a word.
-/
theorem commitSource_commits_iff (pairs : List (String × String)) (message : String)
    : (∃ stmt, parseScript (commitSource pairs message) = .ok [.version (.commit stmt)]
        ∧ Commits pairs message stmt)
      ↔ ∀ pair ∈ pairs, isWord pair.1.toList := by
  constructor
  · rintro ⟨stmt, parsed, commits⟩ pair member
    obtain ⟨value, given⟩ := lastValue_isSome member
    have found := commits.payload pair.1
    rw [given] at found
    exact wordKeys_of_parseScript parsed _ (AssocMap.mem_of_lookup found)
  · intro words
    exact ⟨_, parseScript_commitSource words, commits_commitOf pairs message⟩

/-- An assignment whose key closes the map and starts other statements. -/
def injection : String := "a: \"x\" \x7d; CHECKOUT BRANCH b; COMMIT \x7b c=1"

/-- The assignment is accepted, and the statement that is built is three statements. -/
theorem commitSource_injects
    : ∃ pairs, [injection].mapM parseKv = .ok pairs
        ∧ ∃ stmts, parseScript (commitSource pairs "m") = .ok stmts ∧ stmts.length = 3
          ∧ ¬ ∃ stmt, parseScript (commitSource pairs "m") = .ok [.version (.commit stmt)]
            ∧ Commits pairs "m" stmt := by
  refine ⟨[("a: \"x\" \x7d; CHECKOUT BRANCH b; COMMIT \x7b c", "1")], by decide +kernel, ?_⟩
  generalize parsed : parseScript (commitSource
    [("a: \"x\" \x7d; CHECKOUT BRANCH b; COMMIT \x7b c", "1")] "m") = outcome
  have three : (match parseScript (commitSource
      [("a: \"x\" \x7d; CHECKOUT BRANCH b; COMMIT \x7b c", "1")] "m") with
      | .ok stmts => stmts.length
      | .error _ => 0) = 3 := by
    decide +kernel
  rw [parsed] at three
  cases outcome with
  | error fault => cases three
  | ok stmts =>
    refine ⟨stmts, rfl, three, ?_⟩
    rintro ⟨stmt, single, -⟩
    cases single
    cases three

end Epochs.Cli
