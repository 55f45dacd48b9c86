import Epochs.Ql.Parsing

/-! The keys of every map that is parsed are words. A parser only drops tokens, so every identifier it
returns is spelled as a word of the source.
-/

namespace Epochs.Ql

open Lib Run

-- Parsers only drop tokens

/-- The tokens left are among those before. -/
def Drops (before after : List Token) : Prop := after ⊆ before

theorem drops_frame : Frame Drops :=
  ⟨fun _ => List.Subset.refl _, fun first second => List.Subset.trans second first⟩

namespace Parser

variable {source : List Char} {α β : Type}

theorem current_drops : Within Drops current := by
  refine Within.bind drops_frame (Within.get drops_frame) fun tokens => ?_
  split
  · exact Within.pure drops_frame _
  · exact Within.throw drops_frame _

theorem kind_drops : Within Drops kind :=
  Within.bind drops_frame current_drops fun _ => Within.pure drops_frame _

theorem check_drops (expected : TokenKind) : Within Drops (check expected) :=
  Within.bind drops_frame kind_drops fun _ => Within.pure drops_frame _

theorem bump_drops : Within Drops bump := by
  intro tokens
  match tokens with
  | [] => exact List.Subset.refl _
  | [last] => exact List.Subset.refl _
  | first :: second :: rest => exact List.subset_cons_self first (second :: rest)

theorem failWith_drops (message : ParseMessage) : Within Drops (failWith source message : Parser α) :=
  Within.bind drops_frame current_drops fun _ => Within.throw drops_frame _

theorem expect_drops (expected : TokenKind) : Within Drops (expect source expected) := by
  refine Within.bind drops_frame kind_drops fun found => ?_
  split
  · exact bump_drops
  · exact failWith_drops _

theorem expectIdent_drops : Within Drops (expectIdentOrKeywordAsIdent source) := by
  refine Within.bind drops_frame current_drops fun token => ?_
  split
  · exact failWith_drops _
  · refine Within.bind drops_frame bump_drops fun _ => ?_
    split
    · exact Within.pure drops_frame _
    · exact Within.throw drops_frame _

/-- To consume a token and go on. -/
theorem bump_bind_drops {next : Parser α} (drops : Within Drops next)
    : Within Drops (bump >>= fun _ => next) :=
  Within.bind drops_frame bump_drops fun _ => drops

theorem check_bind_drops {expected : TokenKind} {yes no : Parser α} (ifYes : Within Drops yes)
    (ifNo : Within Drops no)
    : Within Drops (check expected >>= fun found => if found = true then yes else no) := by
  refine Within.bind drops_frame (check_drops expected) fun found => ?_
  split
  · exact ifYes
  · exact ifNo

theorem parseNegative_drops : Within Drops (parseNegative source) := by
  refine Within.bind drops_frame kind_drops fun found => ?_
  split
  · exact bump_bind_drops (Within.pure drops_frame _)
  · exact bump_bind_drops (Within.pure drops_frame _)
  · exact failWith_drops _

/-- The parsers of expressions with a budget. -/
structure ExpressionsDrop (source : List Char) (fuel : Nat) : Prop where
  parseOr : Run.Within Drops (parseOr source fuel)
  orRest : ∀ left, Run.Within Drops (orRest source fuel left)
  parseAnd : Run.Within Drops (parseAnd source fuel)
  andRest : ∀ left, Run.Within Drops (andRest source fuel left)
  parseEquality : Run.Within Drops (parseEquality source fuel)
  equalityRest : ∀ left, Run.Within Drops (equalityRest source fuel left)
  parsePostfix : Run.Within Drops (parsePostfix source fuel)
  postfixRest : ∀ object, Run.Within Drops (postfixRest source fuel object)
  parsePrimary : Run.Within Drops (parsePrimary source fuel)
  parseMapLiteral : Run.Within Drops (parseMapLiteral source fuel)
  mapEntries : ∀ entries, Run.Within Drops (mapEntries source fuel entries)

variable {fuel : Nat}

theorem parsePrimary_drops (inner : ExpressionsDrop source fuel)
    : Within Drops (parsePrimary source (fuel + 1)) := by
  have literal (value : Expression)
      : Within Drops (bump >>= fun _ => (pure value : Parser Expression)) :=
    bump_bind_drops (Within.pure drops_frame value)
  refine Within.bind drops_frame kind_drops fun found => ?_
  split
  case h_7 =>
    exact Within.bind drops_frame inner.parseMapLiteral fun _ => Within.pure drops_frame _
  case h_8 =>
    refine bump_bind_drops (Within.bind drops_frame inner.parseOr fun _ => ?_)
    exact Within.bind drops_frame (expect_drops _) fun _ => Within.pure drops_frame _
  case h_9 => exact bump_bind_drops parseNegative_drops
  case h_10 =>
    split
    · exact Within.bind drops_frame expectIdent_drops fun _ => Within.pure drops_frame _
    · exact failWith_drops _
  all_goals exact literal _

theorem mapEntries_drops (inner : ExpressionsDrop source fuel)
    (entries : List (String × Expression))
    : Within Drops (mapEntries source (fuel + 1) entries) := by
  refine Within.bind drops_frame expectIdent_drops fun key => ?_
  refine Within.bind drops_frame (expect_drops _) fun _ => ?_
  refine Within.bind drops_frame inner.parseOr fun value => ?_
  exact check_bind_drops (bump_bind_drops (inner.mapEntries _)) (Within.pure drops_frame _)

theorem parseMapLiteral_drops (inner : ExpressionsDrop source fuel)
    : Within Drops (parseMapLiteral source (fuel + 1)) := by
  have closes (entries : List (String × Expression))
      : Within Drops (expect source .rBrace >>= fun _ => (pure entries : Parser _)) :=
    Within.bind drops_frame (expect_drops _) fun _ => Within.pure drops_frame _
  refine Within.bind drops_frame (expect_drops _) fun _ => check_bind_drops (closes []) ?_
  exact Within.bind drops_frame (inner.mapEntries []) closes

theorem expressions_drop (fuel : Nat) : ExpressionsDrop source fuel := by
  induction fuel with
  | zero => constructor <;> intros <;> exact Within.throw drops_frame _
  | succ fuel inner =>
    have done (value : Expression) : Within Drops (pure value : Parser Expression) :=
      Within.pure drops_frame value
    refine ⟨?_, fun left => ?_, ?_, fun left => ?_, ?_, fun left => ?_, ?_, fun object => ?_,
      parsePrimary_drops inner, parseMapLiteral_drops inner, mapEntries_drops inner⟩
    · exact Within.bind drops_frame inner.parseAnd inner.orRest
    · refine check_bind_drops (bump_bind_drops ?_) (done left)
      exact Within.bind drops_frame inner.parseAnd fun right => inner.orRest _
    · exact Within.bind drops_frame inner.parseEquality inner.andRest
    · refine check_bind_drops (bump_bind_drops ?_) (done left)
      exact Within.bind drops_frame inner.parseEquality fun right => inner.andRest _
    · exact Within.bind drops_frame inner.parsePostfix inner.equalityRest
    · refine Within.bind drops_frame kind_drops fun found => ?_
      split
      · refine bump_bind_drops ?_
        exact Within.bind drops_frame inner.parsePostfix fun right => inner.equalityRest _
      · exact done left
    · exact Within.bind drops_frame inner.parsePrimary inner.postfixRest
    · refine check_bind_drops (bump_bind_drops ?_) (done object)
      exact Within.bind drops_frame expectIdent_drops fun property => inner.postfixRest _

-- Keys are words

variable {tokens left : List Token}

/-- What a parser that returns leaves is spelled as before. -/
theorem spelled_of_drops {parser : Parser α} {value : α} (drops : Within Drops parser)
    (spelled : ∀ token ∈ tokens, Spelled source token) (ran : parser tokens = .ok value left)
    : ∀ token ∈ left, Spelled source token := by
  have kept := drops.of_ok ran
  exact fun token member => spelled token (kept member)

theorem isWord_of_expectIdent {name : String} (spelled : ∀ token ∈ tokens, Spelled source token)
    (ran : expectIdentOrKeywordAsIdent source tokens = .ok name left) : isWord name.toList := by
  obtain ⟨token, middle, current, ran⟩ := bind_eq_ok.mp ran
  have here : token ∈ tokens := by
    cases tokens with
    | nil => cases current
    | cons first rest =>
      cases current
      exact List.mem_cons_self
  split at ran
  · obtain ⟨_, _, _, failed⟩ := bind_eq_ok.mp ran
    cases failed
  · rename_i looks
    obtain ⟨word, slice, isWord⟩ := spelled token here (by simpa using looks)
    obtain ⟨_, _, _, ran⟩ := bind_eq_ok.mp ran
    rw [slice] at ran
    cases ran
    simpa using isWord

def WordKeys (entries : List (String × Expression)) : Prop :=
  ∀ entry ∈ entries, isWord entry.1.toList

theorem wordKeys_nil : WordKeys [] := fun _ member => absurd member List.not_mem_nil

theorem wordKeys_of_mapEntries {entries result : List (String × Expression)}
    (spelled : ∀ token ∈ tokens, Spelled source token) (before : WordKeys entries)
    (ran : mapEntries source fuel entries tokens = .ok result left) : WordKeys result := by
  induction fuel generalizing entries tokens with
  | zero => cases ran
  | succ fuel ih =>
    obtain ⟨key, one, named, ran⟩ := bind_eq_ok.mp ran
    obtain ⟨_, two, colon, ran⟩ := bind_eq_ok.mp ran
    obtain ⟨value, three, valued, ran⟩ := bind_eq_ok.mp ran
    obtain ⟨more, four, checked, ran⟩ := bind_eq_ok.mp ran
    have spelledOne := spelled_of_drops expectIdent_drops spelled named
    have spelledTwo := spelled_of_drops (expect_drops _) spelledOne colon
    have spelledThree := spelled_of_drops (expressions_drop fuel).parseOr spelledTwo valued
    have spelledFour := spelled_of_drops (check_drops _) spelledThree checked
    have inserted : WordKeys (SortedMap.insertEntry key value entries) := by
      intro entry member
      rcases SortedMap.mem_insertEntry member with rfl | old
      · exact isWord_of_expectIdent spelled named
      · exact before entry old
    split at ran
    · obtain ⟨_, five, comma, ran⟩ := bind_eq_ok.mp ran
      exact ih (spelled_of_drops bump_drops spelledFour comma) inserted ran
    · cases ran
      exact inserted

theorem wordKeys_of_parseMapLiteral {result : List (String × Expression)}
    (spelled : ∀ token ∈ tokens, Spelled source token)
    (ran : parseMapLiteral source fuel tokens = .ok result left) : WordKeys result := by
  cases fuel with
  | zero => cases ran
  | succ fuel =>
    obtain ⟨_, one, brace, ran⟩ := bind_eq_ok.mp ran
    obtain ⟨empty, two, checked, ran⟩ := bind_eq_ok.mp ran
    have spelledOne := spelled_of_drops (expect_drops _) spelled brace
    have spelledTwo := spelled_of_drops (check_drops _) spelledOne checked
    split at ran
    · obtain ⟨_, _, _, done⟩ := bind_eq_ok.mp ran
      cases done
      exact wordKeys_nil
    · obtain ⟨entries, three, read, ran⟩ := bind_eq_ok.mp ran
      obtain ⟨_, _, _, done⟩ := bind_eq_ok.mp ran
      cases done
      exact wordKeys_of_mapEntries spelledTwo wordKeys_nil read

variable {stmt : CommitStmt}

theorem wordKeys_of_parseCommitStmt
    (spelled : ∀ token ∈ tokens, Spelled source token)
    (ran : parseCommitStmt source fuel tokens = .ok stmt left) : WordKeys stmt.payload := by
  obtain ⟨_, one, word, ran⟩ := bind_eq_ok.mp ran
  obtain ⟨payload, two, braces, ran⟩ := bind_eq_ok.mp ran
  obtain ⟨_, three, _, done⟩ := bind_eq_ok.mp ran
  cases done
  exact wordKeys_of_parseMapLiteral (spelled_of_drops (expect_drops _) spelled word) braces

theorem wordKeys_of_parseVersionStatement
    (spelled : ∀ token ∈ tokens, Spelled source token)
    (ran : parseVersionStatement source fuel tokens = .ok (.commit stmt) left)
    : WordKeys stmt.payload := by
  obtain ⟨found, one, looked, ran⟩ := bind_eq_ok.mp ran
  have spelledOne := spelled_of_drops kind_drops spelled looked
  split at ran
  case h_1 =>
    obtain ⟨made, two, commit, done⟩ := bind_eq_ok.mp ran
    cases done
    exact wordKeys_of_parseCommitStmt spelledOne commit
  case h_4 =>
    obtain ⟨_, _, _, ran⟩ := bind_eq_ok.mp ran
    obtain ⟨_, _, _, done⟩ := bind_eq_ok.mp ran
    cases done
  all_goals
    obtain ⟨_, _, _, done⟩ := bind_eq_ok.mp ran
    cases done

theorem wordKeys_of_parseStatement
    (spelled : ∀ token ∈ tokens, Spelled source token)
    (ran : parseStatement source fuel tokens = .ok (.version (.commit stmt)) left)
    : WordKeys stmt.payload := by
  obtain ⟨found, one, looked, ran⟩ := bind_eq_ok.mp ran
  have spelledOne := spelled_of_drops kind_drops spelled looked
  split at ran
  all_goals
    obtain ⟨version, two, parsed, done⟩ := bind_eq_ok.mp ran
    cases done
  all_goals exact wordKeys_of_parseVersionStatement spelledOne parsed

/-- The statements parsed so far come first. -/
theorem append_of_parseStatements {budget : Nat} {stmts result : List Statement}
    (ran : parseStatements source budget fuel stmts tokens = .ok result left)
    : ∃ more, result = stmts ++ more := by
  induction fuel generalizing stmts tokens with
  | zero => cases ran
  | succ fuel ih =>
    obtain ⟨atEnd, one, _, ran⟩ := bind_eq_ok.mp ran
    split at ran
    · cases ran
      exact ⟨[], (List.append_nil _).symm⟩
    · obtain ⟨stmt, two, _, ran⟩ := bind_eq_ok.mp ran
      obtain ⟨_, three, _, ran⟩ := bind_eq_ok.mp ran
      obtain ⟨atEnd, four, _, ran⟩ := bind_eq_ok.mp ran
      split at ran
      · cases ran
        exact ⟨[stmt], rfl⟩
      · obtain ⟨next, five, _, ran⟩ := bind_eq_ok.mp ran
        split at ran
        · obtain ⟨_, _, _, failed⟩ := bind_eq_ok.mp ran
          cases failed
        · obtain ⟨more, same⟩ := ih ran
          exact ⟨stmt :: more, by simpa using same⟩

theorem wordKeys_of_parseStatements {budget : Nat}
    (spelled : ∀ token ∈ tokens, Spelled source token)
    (ran : parseStatements source budget fuel [] tokens = .ok [.version (.commit stmt)] left)
    : WordKeys stmt.payload := by
  cases fuel with
  | zero => cases ran
  | succ fuel =>
    obtain ⟨atEnd, one, looked, ran⟩ := bind_eq_ok.mp ran
    have spelledOne := spelled_of_drops
      (Within.bind drops_frame kind_drops fun _ => Within.pure drops_frame _) spelled looked
    split at ran
    · cases ran
    · obtain ⟨first, two, parsed, ran⟩ := bind_eq_ok.mp ran
      obtain ⟨_, three, _, ran⟩ := bind_eq_ok.mp ran
      obtain ⟨atEnd, four, _, ran⟩ := bind_eq_ok.mp ran
      split at ran
      · cases ran
        exact wordKeys_of_parseStatement spelledOne parsed
      · obtain ⟨next, five, _, ran⟩ := bind_eq_ok.mp ran
        split at ran
        · obtain ⟨_, _, _, failed⟩ := bind_eq_ok.mp ran
          cases failed
        · obtain ⟨more, same⟩ := append_of_parseStatements ran
          cases same
          exact wordKeys_of_parseStatement spelledOne parsed

end Parser

/-- If a script is one commit, the keys of its payload are words. -/
theorem wordKeys_of_parseScript {source : String} {stmt : CommitStmt}
    (parsed : parseScript source = .ok [.version (.commit stmt)]) : Parser.WordKeys stmt.payload := by
  unfold parseScript Parser.runOn at parsed
  split at parsed
  · cases parsed
  · rename_i tokens tokenized
    split at parsed
    · rename_i stmts left ran
      cases parsed
      exact Parser.wordKeys_of_parseStatements (tokenize_spelled tokenized) ran
    · cases parsed

end Epochs.Ql
