import Epochs.Ql.Tokens
import Epochs.Lib.RunRules

/-! What parsers return on the tokens of given lexemes. -/

namespace Epochs.Ql

open Lib

/-- From tokens for the first lexemes the parser returns the value, and the tokens it leaves are for
the others.
-/
def Parses {α : Type} (source : List Char) (parser : Parser α) (before : List Lexeme) (value : α)
    (after : List Lexeme) : Prop :=
  ∀ tokens, List.Forall₂ (Bears source) tokens before
    → ∃ left, parser tokens = .ok value left ∧ List.Forall₂ (Bears source) left after

namespace Parses

variable {source : List Char} {α β : Type} {before middle after rest : List Lexeme}
  {first second : Lexeme} {value : α} {result : β}

theorem pure (value : α) : Parses source (Pure.pure value : Parser α) before value before :=
  fun tokens bears => ⟨tokens, rfl, bears⟩

theorem bind {parser : Parser α} {next : α → Parser β} (head : Parses source parser before value middle)
    (tail : Parses source (next value) middle result after)
    : Parses source (parser >>= next) before result after := by
  intro tokens bears
  obtain ⟨between, ranHead, bearsMiddle⟩ := head tokens bears
  obtain ⟨left, ranTail, bearsAfter⟩ := tail between bearsMiddle
  exact ⟨left, (Run.bind_of_ok ranHead).trans ranTail, bearsAfter⟩

theorem map {parser : Parser α} {change : α → β} (parses : Parses source parser before value after)
    : Parses source (parser >>= fun value => Pure.pure (change value)) before (change value) after :=
  parses.bind (pure _)

theorem kind : Parses source Parser.kind (first :: rest) first.1 (first :: rest) := by
  intro tokens bears
  cases bears with
  | cons here others => exact ⟨_, by rw [← here.kind]; rfl, .cons here others⟩

theorem check (expected : TokenKind)
    : Parses source (Parser.check expected) (first :: rest) (first.1 = expected) (first :: rest) :=
  kind.map

theorem isEof : Parses source Parser.isEof (first :: rest) (first.1 = .eof) (first :: rest) :=
  kind.map

variable {expected : TokenKind}

/-- A check that succeeds. -/
theorem check_pos {yes no : Parser β} (same : first.1 = expected)
    (parses : Parses source yes (first :: rest) result after)
    : Parses source (Parser.check expected >>= fun found => if found = true then yes else no)
        (first :: rest) result after := by
  refine (check expected).bind ?_
  rwa [if_pos (by simpa using same)]

/-- A check that fails. -/
theorem check_neg {yes no : Parser β} (different : first.1 ≠ expected)
    (parses : Parses source no (first :: rest) result after)
    : Parses source (Parser.check expected >>= fun found => if found = true then yes else no)
        (first :: rest) result after := by
  refine (check expected).bind ?_
  rwa [if_neg (by simpa using different)]

theorem bump_cons (token following : Token) (others : List Token)
    : Parser.bump (token :: following :: others) = .ok token (following :: others) := rfl

theorem bump {next : Parser β} (parses : Parses source next (second :: rest) result after)
    : Parses source (Parser.bump >>= fun _ => next) (first :: second :: rest) result after := by
  intro tokens bears
  cases bears with
  | @cons token _ others _ here later =>
    cases later with
    | @cons following _ others _ there last =>
      obtain ⟨left, ran, bearsAfter⟩ := parses _ (.cons there last)
      exact ⟨left, (Run.bind_of_ok (bump_cons token following others)).trans ran, bearsAfter⟩

theorem expect {next : Parser β} (same : first.1 = expected)
    (parses : Parses source next (second :: rest) result after)
    : Parses source (Parser.expect source expected >>= fun _ => next) (first :: second :: rest)
        result after := by
  have opened : (Parser.expect source expected >>= fun _ => next)
      = Parser.kind >>= fun found =>
          (if found = expected then Parser.bump
            else Parser.failWith source (.expected expected found)) >>= fun _ => next := by
    rw [Parser.expect, bind_assoc]
  rw [opened]
  refine kind.bind ?_
  rw [if_pos same]
  exact bump parses

/-- A word is read in its own spelling. -/
theorem expectIdentOrKeywordAsIdent (looks : Parser.looksLikeIdent first.1)
    : Parses source (Parser.expectIdentOrKeywordAsIdent source) (first :: second :: rest)
        (String.ofList first.2) (second :: rest) := by
  intro tokens bears
  cases bears with
  | @cons token _ others _ here later =>
    cases later with
    | @cons following _ others _ there last =>
      refine ⟨following :: others, ?_, .cons there last⟩
      have current : Parser.current (token :: following :: others)
          = .ok token (token :: following :: others) := rfl
      rw [Parser.expectIdentOrKeywordAsIdent, Run.bind_of_ok current, here.kind, looks]
      refine (Run.bind_of_ok (bump_cons token following others)).trans ?_
      rw [here.slice]
      rfl

theorem expectString {text : String} {spelling : List Char}
    : Parses source (Parser.expectString source) ((.string text, spelling) :: second :: rest) text
        (second :: rest) :=
  kind.bind (bump (pure text))

/-- A clause whose first token is not there is left out. -/
theorem optionally_none {start : TokenKind} {clause : Parser α} (different : first.1 ≠ start)
    : Parses source (Parser.optionally start clause) (first :: rest) none (first :: rest) :=
  check_neg different (pure none)

theorem optionally_some {start : TokenKind} {clause : Parser α} (same : first.1 = start)
    (parses : Parses source clause (first :: rest) value after)
    : Parses source (Parser.optionally start clause) (first :: rest) (some value) after :=
  check_pos same parses.map

-- Operands

/-- Whether an expression cannot go on with a token. -/
def endsExpression (kind : TokenKind) : Bool := kind ∉ [.dot, .eq, .neq, .and, .or]

/-- An operand that no operator follows is the whole expression. -/
theorem parseOr_of_parsePrimary {fuel : Nat} {operand : Expression}
    (parses : Parses source (Parser.parsePrimary source (fuel + 1)) before operand (second :: rest))
    (ends : endsExpression second.1)
    : Parses source (Parser.parseOr source (fuel + 5)) before operand (second :: rest) := by
  obtain ⟨noDot, noEq, noNeq, noAnd, noOr⟩ : second.1 ≠ .dot ∧ second.1 ≠ .eq ∧ second.1 ≠ .neq
      ∧ second.1 ≠ .and ∧ second.1 ≠ .or := by
    simpa [endsExpression] using ends
  have noEquality : Parser.equalityOp second.1 = none := by
    unfold Parser.equalityOp
    split
    · exact absurd (by assumption) noEq
    · exact absurd (by assumption) noNeq
    · rfl
  have postfix_ : Parses source (Parser.parsePostfix source (fuel + 2)) before operand
      (second :: rest) := parses.bind (check_neg noDot (pure operand))
  have equality : Parses source (Parser.parseEquality source (fuel + 3)) before operand
      (second :: rest) := by
    refine postfix_.bind (kind.bind ?_)
    rw [noEquality]
    exact pure operand
  have conjunction : Parses source (Parser.parseAnd source (fuel + 4)) before operand
      (second :: rest) := equality.bind (check_neg noAnd (pure operand))
  exact conjunction.bind (check_neg noOr (pure operand))

theorem parsePrimary_string {fuel : Nat} {text : String} {spelling : List Char}
    : Parses source (Parser.parsePrimary source (fuel + 1))
        ((.string text, spelling) :: second :: rest) (.string text) (second :: rest) :=
  kind.bind (bump (pure _))

end Parses

/-- From tokens for the lexemes the parser fails. -/
def Refuses {α : Type} (source : List Char) (parser : Parser α) (before : List Lexeme) : Prop :=
  ∀ tokens, List.Forall₂ (Bears source) tokens before
    → ∃ fault left, parser tokens = .error fault left

namespace Refuses

variable {source : List Char} {α β : Type} {before middle rest : List Lexeme}
  {first second : Lexeme} {value : α}

theorem bind {parser : Parser α} {next : α → Parser β} (head : Refuses source parser before)
    : Refuses source (parser >>= next) before := by
  intro tokens bears
  obtain ⟨fault, left, ran⟩ := head tokens bears
  exact ⟨fault, left, Run.bind_of_error ran⟩

/-- A sequence fails where its second part does. -/
theorem later {parser : Parser α} {next : α → Parser β}
    (head : Parses source parser before value middle) (tail : Refuses source (next value) middle)
    : Refuses source (parser >>= next) before := by
  intro tokens bears
  obtain ⟨between, ranHead, bearsMiddle⟩ := head tokens bears
  obtain ⟨fault, left, ranTail⟩ := tail between bearsMiddle
  exact ⟨fault, left, (Run.bind_of_ok ranHead).trans ranTail⟩

theorem bump {next : Parser β} (refuses : Refuses source next (second :: rest))
    : Refuses source (Parser.bump >>= fun _ => next) (first :: second :: rest) := by
  intro tokens bears
  cases bears with
  | @cons token _ others _ here later =>
    cases later with
    | @cons following _ others _ there last =>
      obtain ⟨fault, left, ran⟩ := refuses _ (.cons there last)
      exact ⟨fault, left,
        (Run.bind_of_ok (Parses.bump_cons token following others)).trans ran⟩

theorem error (message : String)
    : Refuses source (Parser.error source message : Parser α) (first :: rest) := by
  intro tokens bears
  cases bears with
  | cons here others => exact ⟨_, _, rfl⟩

end Refuses

-- Single statements

section Statements

variable {text : String} {lexemes : List Lexeme}

/-- A text whose lexemes are those of a statement is parsed as it. -/
theorem parse_of_reads {stmt : Statement} (reads : Reads text.toList text.toList lexemes)
    (parses : ∀ fuel, Parses text.toList (Parser.parseStatement text.toList fuel) lexemes stmt
      [(.eof, [])])
    : parse text = .ok stmt := by
  obtain ⟨tokens, tokenized, bears⟩ := reads.tokenize
  have finish : Parses text.toList (Parser.expectEofOrSemicolon text.toList) [(.eof, [])] ()
      [(.eof, [])] :=
    Parses.bind (Parses.check_neg (by simp) (Parses.pure ())) (Parses.isEof.bind (Parses.pure ()))
  have whole : Parses text.toList
      (do
        let stmt ← Parser.parseStatement text.toList (Parser.budgetFor tokens)
        Parser.expectEofOrSemicolon text.toList
        pure stmt)
      lexemes stmt [(.eof, [])] :=
    (parses _).bind (finish.bind (Parses.pure stmt))
  obtain ⟨left, ran, -⟩ := whole tokens bears
  rw [parse, Parser.runOn, tokenized]
  dsimp only
  rw [ran]

theorem parse_ne_ok_of_refuses (reads : Reads text.toList text.toList lexemes)
    (refuses : ∀ fuel, Refuses text.toList (Parser.parseStatement text.toList fuel) lexemes)
    (stmt : Statement)
    : parse text ≠ .ok stmt := by
  obtain ⟨tokens, tokenized, bears⟩ := reads.tokenize
  obtain ⟨fault, left, ran⟩ := (refuses (Parser.budgetFor tokens)).bind tokens bears
  rw [parse, Parser.runOn, tokenized]
  dsimp only
  rw [ran]
  simp

end Statements
end Epochs.Ql
