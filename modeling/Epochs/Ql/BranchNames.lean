import Epochs.Ql.Parsing

/-! Names of branches in statements. A new branch takes any word as its name; where a branch is the
target of a statement, the word must not be a keyword.
-/

namespace Epochs.Ql

open Lib

-- The statements

def wordLexeme (word : String) : Lexeme := (keywordOrIdent word, word.toList)

def IsKeyword (word : String) : Prop := Text.upper word ∈ AssocMap.keys keywords

instance (word : String) : Decidable (IsKeyword word) := inferInstanceAs (Decidable (_ ∈ _))

/-- The word can be used wherever it can be named: `CREATE BRANCH`, `CHECKOUT BRANCH`, `USE BRANCH` and
`MERGE BRANCH` all accept it or all reject it, and those that accept it read the word as it is spelled.
-/
structure UsableBranch (name : String) : Prop where
  checkout : (∃ stmt, parse ("CREATE BRANCH " ++ name) = .ok stmt)
    ↔ ∃ stmt, parse ("CHECKOUT BRANCH " ++ name) = .ok stmt
  use : (∃ stmt, parse ("CREATE BRANCH " ++ name) = .ok stmt)
    ↔ ∃ stmt, parse ("USE BRANCH " ++ name) = .ok stmt
  merge : (∃ stmt, parse ("CREATE BRANCH " ++ name) = .ok stmt)
    ↔ ∃ stmt, parse ("MERGE BRANCH " ++ name ++ " INTO HEAD") = .ok stmt
  created : ∀ stmt, parse ("CREATE BRANCH " ++ name) = .ok stmt
    → stmt = .version (.branch (.create name none))
  checkedOut : ∀ stmt, parse ("CHECKOUT BRANCH " ++ name) = .ok stmt
    → stmt = .version (.checkout (.branch name))
  used : ∀ stmt, parse ("USE BRANCH " ++ name) = .ok stmt
    → stmt = .query { context := some { target := .branch name } }
  merged : ∀ stmt, parse ("MERGE BRANCH " ++ name ++ " INTO HEAD") = .ok stmt
    → stmt = .version (.merge { source := .branch name, into := .head, strategy := .fastForward })

section Reads

variable {source rest : List Char} {lexemes : List Lexeme} {name : String}

theorem reads_wordLexeme {word : String} (isWord : isWord word.toList) (ends : endsWord rest)
    (later : Reads source rest lexemes)
    : Reads source (word.toList ++ rest) (wordLexeme word :: lexemes) := by
  have reads := Reads.word isWord ends later
  rwa [String.ofList_toList] at reads

/-- A keyword, `BRANCH` and a name. -/
theorem reads_branch {verb : String} (isVerb : isWord verb.toList) (isName : isWord name.toList)
    (ends : endsWord rest) (later : Reads source rest lexemes)
    : Reads source (verb.toList ++ ' ' :: ("BRANCH".toList ++ ' ' :: (name.toList ++ rest)))
        (wordLexeme verb :: wordLexeme "BRANCH" :: wordLexeme name :: lexemes) := by
  have named := reads_wordLexeme isName ends later
  have branch := @reads_wordLexeme source _ _ "BRANCH" (by decide) rfl
    (@Reads.blank source ' ' _ _ (by decide) named)
  exact reads_wordLexeme isVerb rfl (branch.blank (by decide))

/-- A keyword, `BRANCH` and a name are the whole statement. -/
theorem reads_branch_whole {verb : String} (isVerb : isWord verb.toList) (isName : isWord name.toList)
    (text : String) (spelled : text = verb ++ " BRANCH " ++ name)
    : Reads text.toList text.toList
        [wordLexeme verb, wordLexeme "BRANCH", wordLexeme name, (.eof, [])] := by
  have reads := @reads_branch text.toList [] _ name verb isVerb isName rfl Reads.nil
  have chars : text.toList = verb.toList ++ ' ' :: ("BRANCH".toList ++ ' ' :: (name.toList ++ [])) := by
    simp [spelled]
  rwa [← chars] at reads

theorem reads_merge (isName : isWord name.toList) (text : String)
    (spelled : text = "MERGE BRANCH " ++ name ++ " INTO HEAD")
    : Reads text.toList text.toList
        [wordLexeme "MERGE", wordLexeme "BRANCH", wordLexeme name, wordLexeme "INTO",
          wordLexeme "HEAD", (.eof, [])] := by
  have head := @reads_wordLexeme text.toList [] _ "HEAD" (by decide) rfl Reads.nil
  have into := @reads_wordLexeme text.toList _ _ "INTO" (by decide) rfl
    (@Reads.blank text.toList ' ' _ _ (by decide) head)
  have reads := @reads_branch text.toList _ _ name "MERGE" (by decide) isName rfl
    (@Reads.blank text.toList ' ' _ _ (by decide) into)
  have chars : text.toList = "MERGE".toList ++ ' ' :: ("BRANCH".toList ++ ' ' :: (name.toList
      ++ ' ' :: ("INTO".toList ++ ' ' :: ("HEAD".toList ++ [])))) := by
    simp [spelled]
  rwa [← chars] at reads

end Reads

-- What they are parsed as

section Parses

variable {source : List Char} {rest : List Lexeme} {second : Lexeme} {name : String}

theorem keywordOrIdent_of_not_keyword (plain : ¬ IsKeyword name)
    : keywordOrIdent name = .ident name := by
  have missing : AssocMap.lookup (Text.upper name) keywords = none := by
    rw [← Option.not_isSome_iff_eq_none, AssocMap.lookup_isSome]
    exact plain
  rw [keywordOrIdent, missing]
  rfl

def isReserved : TokenKind → Bool
  | .ident _ | .string _ => false
  | _ => true

theorem isReserved_of_keyword (keyword : IsKeyword name) : isReserved (keywordOrIdent name) := by
  have listed : ∀ entry ∈ keywords, isReserved entry.2 := by decide
  obtain ⟨kind, found⟩ := Option.isSome_iff_exists.mp (AssocMap.lookup_isSome.mpr keyword)
  rw [keywordOrIdent, found]
  exact listed _ (AssocMap.mem_of_lookup found)

theorem parses_word
    : Parses source (Parser.expectIdent source) (wordLexeme name :: second :: rest) name
        (second :: rest) := by
  have parses := @Parses.expectIdentOrKeywordAsIdent source rest (wordLexeme name) second
    (looksLikeIdent_keywordOrIdent name)
  rwa [wordLexeme, String.ofList_toList] at parses

theorem parses_targetName (plain : ¬ IsKeyword name) (message : String)
    : Parses source (Parser.targetName source message) (wordLexeme name :: second :: rest) name
        (second :: rest) := by
  refine Parses.kind.bind ?_
  rw [show (wordLexeme name).1 = .ident name from keywordOrIdent_of_not_keyword plain]
  exact parses_word

theorem refuses_targetName (keyword : IsKeyword name) (message : String)
    : Refuses source (Parser.targetName source message) (wordLexeme name :: rest) := by
  have reserved : isReserved (wordLexeme name).1 := isReserved_of_keyword keyword
  refine Refuses.later Parses.kind ?_
  split
  · rename_i same
    rw [same] at reserved
    cases reserved
  · rename_i same
    rw [same] at reserved
    cases reserved
  · exact Refuses.error message

/-- `BRANCH` and a name that is no keyword. -/
theorem parses_branchRef (plain : ¬ IsKeyword name)
    : Parses source (Parser.parseTargetRef source)
        (wordLexeme "BRANCH" :: wordLexeme name :: second :: rest) (.branch name) (second :: rest) :=
  Parses.kind.bind (Parses.bump (parses_targetName plain _).map)

theorem refuses_branchRef (keyword : IsKeyword name)
    : Refuses source (Parser.parseTargetRef source)
        (wordLexeme "BRANCH" :: wordLexeme name :: rest) :=
  Refuses.later Parses.kind (Refuses.bump (refuses_targetName keyword _).bind)

/-- A name is what `CREATE BRANCH` takes, whether it is a keyword or not. -/
theorem parses_expectName
    : Parses source (Parser.expectName source) (wordLexeme name :: second :: rest) name
        (second :: rest) := by
  have looks : Parser.looksLikeIdent (wordLexeme name).1 := looksLikeIdent_keywordOrIdent name
  refine Parses.kind.bind ?_
  split
  · rename_i same
    rw [same] at looks
    cases looks
  · exact parses_word

end Parses

section Statements

variable {name : String} (isName : isWord name.toList)
include isName

/-- Every word is accepted as the name of a new branch. -/
theorem parse_create
    : parse ("CREATE BRANCH " ++ name) = .ok (.version (.branch (.create name none))) := by
  refine parse_of_reads
    (@reads_branch_whole name "CREATE" (by decide) isName _ (by simp)) fun fuel => ?_
  refine Parses.kind.bind (Parses.map (Parses.kind.bind (Parses.map (Parses.kind.bind ?_))))
  refine Parses.bump (Parses.expect rfl (parses_expectName.bind ?_))
  exact Parses.bind (Parses.check_neg (by simp) (Parses.pure none)) (Parses.pure _)

theorem parse_checkout (plain : ¬ IsKeyword name)
    : parse ("CHECKOUT BRANCH " ++ name) = .ok (.version (.checkout (.branch name))) := by
  refine parse_of_reads
    (@reads_branch_whole name "CHECKOUT" (by decide) isName _ (by simp)) fun fuel => ?_
  exact Parses.kind.bind (Parses.map (Parses.kind.bind (Parses.bump (parses_branchRef plain).map)))

theorem parse_use (plain : ¬ IsKeyword name)
    : parse ("USE BRANCH " ++ name)
      = .ok (.query { context := some { target := .branch name } }) := by
  refine parse_of_reads
    (@reads_branch_whole name "USE" (by decide) isName _ (by simp)) fun fuel => ?_
  refine Parses.kind.bind (Parses.map ?_)
  refine (Parses.optionally_some rfl (Parses.bump (parses_branchRef plain).map)).bind ?_
  refine (Parses.optionally_none (by simp)).bind ((Parses.optionally_none (by simp)).bind ?_)
  refine (Parses.optionally_none (by simp)).bind ((Parses.optionally_none (by simp)).bind ?_)
  exact Parses.pure _

theorem parse_merge (plain : ¬ IsKeyword name)
    : parse ("MERGE BRANCH " ++ name ++ " INTO HEAD")
      = .ok (.version (.merge
          { source := .branch name, into := .head, strategy := .fastForward })) := by
  refine parse_of_reads (reads_merge isName _ rfl) fun fuel => ?_
  refine Parses.kind.bind (Parses.map (Parses.kind.bind (Parses.map ?_)))
  refine Parses.expect rfl ((parses_branchRef plain).bind (Parses.expect rfl ?_))
  refine Parses.bind (Parses.kind.bind (Parses.bump (Parses.pure TargetRef.head))) ?_
  exact Parses.bind (Parses.check_neg (by simp) (Parses.pure MergeStrategy.fastForward))
    (Parses.pure _)

/-- A keyword is rejected where a branch is the target. -/
theorem parse_checkout_ne_ok (keyword : IsKeyword name) (stmt : Statement)
    : parse ("CHECKOUT BRANCH " ++ name) ≠ .ok stmt := by
  refine parse_ne_ok_of_refuses
    (@reads_branch_whole name "CHECKOUT" (by decide) isName _ (by simp)) (fun fuel => ?_) stmt
  refine Refuses.later Parses.kind (Refuses.bind (Refuses.later Parses.kind (Refuses.bump ?_)))
  exact (refuses_branchRef keyword).bind

end Statements

/-- A word can be used as a branch wherever it can be named exactly when it is no keyword. -/
theorem usableBranch_iff {name : String} (isName : isWord name.toList)
    : UsableBranch name ↔ ¬ IsKeyword name := by
  have creates : ∃ stmt, parse ("CREATE BRANCH " ++ name) = .ok stmt := ⟨_, parse_create isName⟩
  constructor
  · intro usable keyword
    obtain ⟨stmt, parsed⟩ := usable.checkout.mp creates
    exact parse_checkout_ne_ok isName keyword stmt parsed
  · intro plain
    have same {first second : Statement} {text : String} (parsed : parse text = .ok first)
        (again : parse text = .ok second) : second = first :=
      Except.ok.inj (again.symm.trans parsed)
    exact
      { checkout := iff_of_true creates ⟨_, parse_checkout isName plain⟩
        use := iff_of_true creates ⟨_, parse_use isName plain⟩
        merge := iff_of_true creates ⟨_, parse_merge isName plain⟩
        created := fun stmt => same (parse_create isName)
        checkedOut := fun stmt => same (parse_checkout isName plain)
        used := fun stmt => same (parse_use isName plain)
        merged := fun stmt => same (parse_merge isName plain) }

theorem usableBranch_main : isWord "main".toList ∧ UsableBranch "main" :=
  ⟨by decide, (usableBranch_iff (by decide)).mpr (by decide)⟩

/-- A branch named `index` can be created but not checked out. -/
theorem not_usableBranch_index : isWord "index".toList ∧ ¬ UsableBranch "index" := by
  refine ⟨by decide, fun usable => ?_⟩
  obtain ⟨stmt, parsed⟩ := usable.checkout.mp ⟨_, parse_create (by decide)⟩
  exact parse_checkout_ne_ok (by decide) (by decide) stmt parsed

end Epochs.Ql
