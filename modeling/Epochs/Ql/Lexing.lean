import Epochs.Ql.Parser

/-! How the tokenizer reads: slices of the source, what it skips between two tokens, and what it reads
as one token, wherever this stands in a source.
-/

namespace Epochs.Ql

open Lib

-- Slices between characters

def bytes (text : List Char) : Nat := (text.map Char.utf8Size).sum

@[simp]
theorem bytes_cons (char : Char) (text : List Char)
    : bytes (char :: text) = char.utf8Size + bytes text := by
  simp [bytes]

@[simp]
theorem bytes_append (first second : List Char)
    : bytes (first ++ second) = bytes first + bytes second := by
  simp [bytes]

theorem dropBytes_append (front rest : List Char)
    : dropBytes (bytes front) (front ++ rest) = some rest := by
  induction front with
  | nil => cases rest <;> rfl
  | cons char front ih =>
    have positive := char.utf8Size_pos
    obtain ⟨count, size⟩ : ∃ count, bytes (char :: front) = count + 1 :=
      ⟨bytes (char :: front) - 1, by rw [bytes_cons]; omega⟩
    rw [size, List.cons_append, dropBytes, ← size, bytes_cons, if_pos (by omega)]
    rwa [Nat.add_sub_cancel_left]

theorem takeBytes_append (text rest : List Char)
    : takeBytes (bytes text) (text ++ rest) = some text := by
  induction text with
  | nil => cases rest <;> rfl
  | cons char text ih =>
    have positive := char.utf8Size_pos
    obtain ⟨count, size⟩ : ∃ count, bytes (char :: text) = count + 1 :=
      ⟨bytes (char :: text) - 1, by rw [bytes_cons]; omega⟩
    rw [size, List.cons_append, takeBytes, ← size, bytes_cons, if_pos (by omega),
      Nat.add_sub_cancel_left, ih]
    rfl

def At (source : List Char) (state : LexState) : Prop :=
  ∃ front, source = front ++ state.rest ∧ state.offset = bytes front

section

variable {source : List Char} {offset : Nat} {text rest : List Char}

theorem at_start (source : List Char) : At source ⟨0, source⟩ := ⟨[], rfl, rfl⟩

theorem At.skip (here : At source ⟨offset, text ++ rest⟩) : At source ⟨offset + bytes text, rest⟩ := by
  obtain ⟨front, whole, size⟩ := here
  refine ⟨front ++ text, by rw [whole, List.append_assoc], ?_⟩
  rw [bytes_append]
  exact congrArg (· + bytes text) size

theorem At.slice (here : At source ⟨offset, text ++ rest⟩)
    : sliceSource source offset (offset + bytes text) = some text := by
  obtain ⟨front, whole, size⟩ := here
  obtain rfl : offset = bytes front := size
  rw [sliceSource, if_pos (by omega), whole, dropBytes_append, Nat.add_sub_cancel_left]
  exact takeBytes_append text rest

end

-- Gaps

/-- White space and comments, each comment with the line break that ends it. The last gap of a source
may end in a comment without one.
-/
inductive Gap : (last : Bool) → List Char → Prop
  | nil {last : Bool} : Gap last []
  | white {last : Bool} {char : Char} {rest : List Char} (blank : Text.isWhitespace char)
      (later : Gap last rest) : Gap last (char :: rest)
  | comment {last : Bool} {body rest : List Char} (oneLine : '\n' ∉ body) (later : Gap last rest)
      : Gap last ('-' :: '-' :: (body ++ '\n' :: rest))
  | trailing {body : List Char} (oneLine : '\n' ∉ body) : Gap true ('-' :: '-' :: body)

/-- A text that starts with no white space and with no comment. -/
def isVisible : List Char → Bool
  | [] => true
  | '-' :: '-' :: _ => false
  | char :: _ => !Text.isWhitespace char

/-- A text that ends a word, a number and a comment before it. -/
def isBreak : List Char → Bool
  | [] => true
  | char :: _ => char = '\n'

variable {char : Char} {rest : List Char}

theorem isVisible_cons
    : isVisible (char :: rest)
      ↔ Text.isWhitespace char = false ∧ ∀ next, char = '-' → rest = '-' :: next → False := by
  constructor
  · intro visible
    unfold isVisible at visible
    split at visible
    · simp_all
    · cases visible
    · rename_i noComment same
      cases same
      exact ⟨by simpa using visible, noComment⟩
  · rintro ⟨visible, noComment⟩
    rw [isVisible.eq_3 _ _ noComment, visible]
    rfl

theorem skipBlank_of_visible {text : List Char} (visible : isVisible text) (offset : Nat)
    : skipBlank false offset text = ⟨offset, text⟩ := by
  cases text with
  | nil => rfl
  | cons char rest =>
    obtain ⟨solid, noComment⟩ := isVisible_cons.mp visible
    rw [skipBlank.eq_4 _ _ _ noComment, if_neg (by simp [solid])]

variable {tail : List Char}

theorem append_ne_cons (notBreak : char ≠ '\n')
    (breaks : isBreak tail) (differs : ∀ next, rest = char :: next → False) (next : List Char)
    : rest ++ tail = char :: next → False := by
  intro same
  cases rest with
  | nil =>
    obtain rfl : tail = char :: next := same
    exact notBreak (by simpa [isBreak] using breaks)
  | cons second rest =>
    obtain ⟨rfl, -⟩ := List.cons.inj same
    exact differs rest rfl

theorem isVisible_append (visible : isVisible (char :: rest))
    (breaks : isBreak tail) : isVisible (char :: (rest ++ tail)) := by
  obtain ⟨solid, noComment⟩ := isVisible_cons.mp visible
  exact isVisible_cons.mpr ⟨solid, fun next isDash =>
    append_ne_cons (by decide) breaks (fun more => noComment more isDash) next⟩

theorem bytes_dashes (body : List Char) : bytes ('-' :: '-' :: body) = 2 + bytes body := by
  have dash : '-'.utf8Size = 1 := rfl
  rw [bytes_cons, bytes_cons, dash, ← Nat.add_assoc]

theorem skipBlank_comment {body : List Char} (oneLine : '\n' ∉ body) (offset : Nat) (rest : List Char)
    : skipBlank true offset (body ++ '\n' :: rest)
      = skipBlank false (offset + bytes body + 1) rest := by
  induction body generalizing offset with
  | nil => rfl
  | cons char body ih =>
    obtain ⟨notBreak, oneLine⟩ : ¬ '\n' = char ∧ '\n' ∉ body := by simpa using oneLine
    have stays : decide (char ≠ '\n') = true := decide_eq_true (Ne.symm notBreak)
    rw [List.cons_append, skipBlank, stays, ih oneLine, bytes_cons, Nat.add_assoc offset]

theorem skipBlank_trailing {body : List Char} (oneLine : '\n' ∉ body) (offset : Nat)
    : skipBlank true offset body = ⟨offset + bytes body, []⟩ := by
  induction body generalizing offset with
  | nil => rfl
  | cons char body ih =>
    obtain ⟨notBreak, oneLine⟩ : ¬ '\n' = char ∧ '\n' ∉ body := by simpa using oneLine
    have stays : decide (char ≠ '\n') = true := decide_eq_true (Ne.symm notBreak)
    rw [skipBlank, stays, ih oneLine, bytes_cons, Nat.add_assoc offset]

/-- The tokenizer skips a gap. After a comment that nothing ends, a line break has to follow. -/
theorem skipBlank_gap {last : Bool} {gap : List Char} (blank : Gap last gap)
    (ended : last → isBreak rest) (offset : Nat)
    : skipBlank false offset (gap ++ rest) = skipBlank false (offset + bytes gap) rest := by
  have newline : '\n'.utf8Size = 1 := rfl
  induction blank generalizing offset with
  | nil => rfl
  | @white last char gap blank _ ih =>
    have noComment : ∀ next, char = '-' → gap ++ rest = '-' :: next → False := by
      rintro next rfl -
      exact absurd blank (by decide)
    rw [List.cons_append, skipBlank.eq_4 _ _ _ noComment, if_pos blank, ih ended, bytes_cons,
      Nat.add_assoc]
  | @comment last body gap oneLine _ ih =>
    have split : '-' :: '-' :: (body ++ '\n' :: gap) ++ rest
        = '-' :: '-' :: (body ++ '\n' :: (gap ++ rest)) := by simp
    rw [split, skipBlank, skipBlank_comment oneLine, ih ended, bytes_dashes]
    simp [newline, Nat.add_assoc]
  | @trailing body oneLine =>
    have breaks := ended rfl
    cases rest with
    | nil =>
      rw [List.append_nil, skipBlank.eq_3, skipBlank_trailing oneLine, skipBlank, bytes_dashes,
        Nat.add_assoc]
    | cons char rest =>
      obtain rfl : char = '\n' := by simpa [isBreak] using breaks
      rw [List.cons_append, List.cons_append, skipBlank, skipBlank_comment oneLine,
        skipBlank.eq_4 _ '\n' _ (by simp), if_pos (by decide), bytes_dashes, newline,
        Nat.add_assoc offset]

/-- One more character of a comment. -/
theorem Gap.grow {last : Bool} {gap : List Char} (notBreak : char ≠ '\n')
    (blank : Gap last ('-' :: '-' :: gap)) : Gap last ('-' :: '-' :: char :: gap) := by
  cases blank with
  | white blank => exact absurd blank (by decide)
  | @comment _ body rest oneLine later =>
    exact @Gap.comment _ (char :: body) _ (by simp [oneLine, Ne.symm notBreak]) later
  | trailing oneLine => exact .trailing (by simp [oneLine, Ne.symm notBreak])

/-- The tokenizer skips a gap and stops at a visible character or at the end. -/
theorem skipBlank_spec (inComment : Bool) (offset : Nat) (text : List Char)
    : ∃ gap rest, text = gap ++ rest
      ∧ skipBlank inComment offset text = ⟨offset + bytes gap, rest⟩ ∧ isVisible rest
      ∧ Gap rest.isEmpty (if inComment then '-' :: '-' :: gap else gap) := by
  induction inComment, offset, text using skipBlank.induct with
  | case1 inComment offset =>
    refine ⟨[], [], rfl, by rw [skipBlank]; rfl, rfl, ?_⟩
    cases inComment with
    | false => exact .nil
    | true => exact .trailing List.not_mem_nil
  | case2 offset char text ih =>
    obtain ⟨gap, rest, rfl, skipped, visible, blank⟩ := ih
    refine ⟨char :: gap, rest, rfl, ?_, visible, ?_⟩
    · rw [skipBlank, skipped, bytes_cons, Nat.add_assoc]
    · by_cases isBreak : char = '\n'
      · subst isBreak
        exact @Gap.comment _ [] _ List.not_mem_nil (by simpa using blank)
      · have inside : Gap rest.isEmpty ('-' :: '-' :: gap) := by simpa [isBreak] using blank
        exact inside.grow isBreak
  | case3 offset text ih =>
    obtain ⟨gap, rest, rfl, skipped, visible, blank⟩ := ih
    refine ⟨'-' :: '-' :: gap, rest, rfl, ?_, visible, blank⟩
    rw [skipBlank, skipped, bytes_dashes, Nat.add_assoc]
  | case4 offset char text noComment white ih =>
    obtain ⟨gap, rest, rfl, skipped, visible, blank⟩ := ih
    refine ⟨char :: gap, rest, rfl, ?_, visible, .white white blank⟩
    rw [skipBlank.eq_4 _ _ _ noComment, if_pos white, skipped, bytes_cons, Nat.add_assoc]
  | case5 offset char text noComment visible =>
    refine ⟨[], char :: text, rfl, ?_, ?_, .nil⟩
    · rw [skipBlank.eq_4 _ _ _ noComment, if_neg visible]
      rfl
    · exact isVisible_cons.mpr ⟨by simpa using visible, noComment⟩

-- Runs of characters

/-- The text does not start with a character that passes a test. -/
def stops (test : Char → Bool) : List Char → Bool
  | [] => true
  | first :: _ => !test first

section

variable {test : Char → Bool} {front rest tail : List Char}

theorem takeWhile_append (all : front.all test) (ends : stops test rest)
    : (front ++ rest).takeWhile test = front ∧ (front ++ rest).dropWhile test = rest := by
  have passes := List.all_eq_true.mp all
  rw [List.takeWhile_append_of_pos passes, List.dropWhile_append_of_pos passes]
  cases rest with
  | nil => simp
  | cons first rest =>
    have fails : test first = false := by simpa [stops] using ends
    simp [fails]

theorem spanWhile_append (all : front.all test) (ends : stops test rest) (offset : Nat)
    : spanWhile test ⟨offset, front ++ rest⟩ = ⟨offset + bytes front, rest⟩ := by
  obtain ⟨taken, dropped⟩ := takeWhile_append all ends
  rw [spanWhile, taken, dropped]
  rfl

theorem stops_dropWhile (test : Char → Bool) (text : List Char) : stops test (text.dropWhile test) := by
  induction text with
  | nil => rfl
  | cons first text ih =>
    by_cases passes : test first
    · rwa [List.dropWhile_cons_of_pos passes]
    · rw [List.dropWhile_cons_of_neg passes, stops, eq_false_of_ne_true passes]
      rfl

theorem stops_append (ends : stops test rest) (newline : test '\n' = false) (breaks : isBreak tail)
    : stops test (rest ++ tail) := by
  cases rest with
  | cons first rest => exact ends
  | nil =>
    cases tail with
    | nil => rfl
    | cons first tail =>
      obtain rfl : first = '\n' := by simpa [isBreak] using breaks
      rw [List.nil_append, stops, newline]
      rfl

end

def isWord : List Char → Bool
  | [] => false
  | first :: rest => startsWord first ∧ rest.all continuesWord

def endsWord (text : List Char) : Bool := stops continuesWord text

theorem isDigit_iff (char : Char) : isDigit char ↔ 48 ≤ char.toNat ∧ char.toNat ≤ 57 := by
  simp [isDigit, Char.le_def, UInt32.le_iff_toNat_le]

theorem startsWord_iff (char : Char)
    : startsWord char
      ↔ (97 ≤ char.toNat ∧ char.toNat ≤ 122) ∨ (65 ≤ char.toNat ∧ char.toNat ≤ 90)
        ∨ char.toNat = 95 := by
  have underscore : char = '_' ↔ char.toNat = 95 := by
    rw [← Char.toNat_inj]
    rfl
  simp [startsWord, isAlpha, Char.le_def, UInt32.le_iff_toNat_le, underscore, or_assoc]

theorem continuesWord_iff (char : Char) : continuesWord char ↔ startsWord char ∨ isDigit char := by
  simp only [continuesWord, startsWord, decide_eq_true_eq]
  tauto

theorem isVisible_of_startsWord (starts : startsWord char)
    : isVisible (char :: rest) := by
  rw [startsWord_iff] at starts
  refine isVisible_cons.mpr ⟨?_, ?_⟩
  · simp only [Text.isWhitespace, decide_eq_false_iff_not]
    omega
  · rintro next rfl
    simp at starts

theorem isVisible_of_isDigit (digit : isDigit char)
    : isVisible (char :: rest) := by
  rw [isDigit_iff] at digit
  refine isVisible_cons.mpr ⟨?_, ?_⟩
  · simp only [Text.isWhitespace, decide_eq_false_iff_not]
    omega
  · rintro next rfl
    simp at digit

section Source

variable {source : List Char}

theorem lexToken_of_startsWord (starts : startsWord char) (offset : Nat)
    (rest : List Char)
    : lexToken source offset char rest = lexIdentOrKeyword source ⟨offset, char :: rest⟩ := by
  have noDigit : isDigit char = false := by
    rw [startsWord_iff] at starts
    rw [← Bool.not_eq_true, isDigit_iff]
    omega
  unfold lexToken
  split
  all_goals first
    | rw [noDigit, starts]; rfl
    | exact absurd starts (by decide)

theorem lexToken_of_isDigit (digit : isDigit char) (offset : Nat) (rest : List Char)
    : lexToken source offset char rest = lexNumber source ⟨offset, char :: rest⟩ := by
  unfold lexToken
  split
  all_goals first
    | rw [digit]; rfl
    | exact absurd digit (by decide)

end Source

/-- Keywords and identifiers can both be read as identifiers. -/
theorem looksLikeIdent_keywordOrIdent (text : String)
    : Parser.looksLikeIdent (keywordOrIdent text) := by
  have listed : ∀ entry ∈ keywords, Parser.looksLikeIdent entry.2 := by decide
  rw [keywordOrIdent]
  cases found : AssocMap.lookup (Text.upper text) keywords with
  | none => rfl
  | some kind => exact listed _ (AssocMap.mem_of_lookup found)

variable {kind : TokenKind}

theorem ne_eof_of_looksLikeIdent (looks : Parser.looksLikeIdent kind)
    : kind ≠ .eof := by
  rintro rfl
  cases looks

-- Quoted texts

/-- The text between the quotes of a literal stands for the value. -/
inductive Quotes : (value quoted : List Char) → Prop
  | nil : Quotes [] []
  | plain {char : Char} {value quoted : List Char} (noQuote : char ≠ '"') (noEscape : char ≠ '\\')
      (rest : Quotes value quoted) : Quotes (char :: value) (char :: quoted)
  | escaped {char : Char} {value quoted : List Char} (rest : Quotes value quoted)
      : Quotes (unescape char :: value) ('\\' :: char :: quoted)

theorem lexStringBody_of_quotes {value quoted : List Char} (quotes : Quotes value quoted)
    (before : List Char) (offset : Nat) (rest : List Char)
    : lexStringBody before offset (quoted ++ '"' :: rest)
      = .ok (value.reverse ++ before, ⟨offset + bytes quoted + 1, rest⟩) := by
  induction quotes generalizing before offset with
  | nil => rfl
  | plain noQuote noEscape _ ih =>
    rw [List.cons_append, lexStringBody, ih]
    · simp [Nat.add_assoc]
    · exact noQuote
    · exact fun same _ => noEscape same
    · exact fun _ _ same _ => noEscape same
  | escaped _ ih =>
    rw [List.cons_append, List.cons_append, lexStringBody, ih]
    have ascii : '\\'.utf8Size = 1 := rfl
    simp [Nat.add_assoc, ascii]

-- Lexemes

/-- A text is one token of the given kind when the rest follows: in every source the tokenizer reads
it so, also when a line break and more come after the rest.
-/
structure Lexes (text : List Char) (kind : TokenKind) (rest : List Char) : Prop where
  nonempty : text ≠ []
  notEnd : kind ≠ .eof
  literal : ∀ value, kind = .int value → 0 ≤ value ∧ value < 2 ^ 63
  spelled : Parser.looksLikeIdent kind → isWord text
  reads : ∀ source offset tail, isBreak tail → At source ⟨offset, text ++ (rest ++ tail)⟩
    → nextToken source ⟨offset, text ++ (rest ++ tail)⟩
      = .ok (⟨kind, offset, offset + bytes text⟩, ⟨offset + bytes text, rest ++ tail⟩)

theorem nextToken_of_visible (visible : isVisible (char :: rest))
    (source : List Char) (offset : Nat)
    : nextToken source ⟨offset, char :: rest⟩ = lexToken source offset char rest := by
  rw [nextToken, skipBlank_of_visible visible]

section

variable {char : Char} {text rest more : List Char} {kind : TokenKind}

/-- A symbol of one or more characters. -/
theorem Lexes.symbol (width : Nat) (size : bytes (char :: more) = width)
    (visible : isVisible (char :: (more ++ rest)))
    (plain : kind ≠ .eof ∧ (∀ value, kind ≠ .int value) ∧ ¬ Parser.looksLikeIdent kind)
    (read : ∀ source offset tail, isBreak tail
      → lexToken source offset char (more ++ (rest ++ tail))
        = Ql.symbol kind offset width (rest ++ tail))
    : Lexes (char :: more) kind rest where
  nonempty := List.cons_ne_nil _ _
  notEnd := plain.1
  literal value same := absurd same (plain.2.1 value)
  spelled looks := absurd looks plain.2.2
  reads source offset tail breaks _ := by
    have longer := isVisible_append visible breaks
    rw [List.append_assoc] at longer
    rw [List.cons_append, nextToken_of_visible longer, read source offset tail breaks, size]
    rfl

/-- A word before something that does not continue it. -/
theorem Lexes.word {word : List Char} (isWord : isWord word) (ends : endsWord rest)
    : Lexes word (keywordOrIdent (String.ofList word)) rest := by
  have looks := looksLikeIdent_keywordOrIdent (String.ofList word)
  cases word with
  | nil => cases isWord
  | cons first word =>
    obtain ⟨starts, continues⟩ : startsWord first ∧ word.all continuesWord := by
      simpa [Ql.isWord] using isWord
    refine ⟨List.cons_ne_nil _ _, ne_eof_of_looksLikeIdent looks, ?_, fun _ => isWord, ?_⟩
    · intro value same
      rw [same] at looks
      cases looks
    · intro source offset tail breaks here
      have all : (first :: word).all continuesWord := by
        rw [List.all_cons, (continuesWord_iff first).mpr (.inl starts), continues]
        rfl
      have span := spanWhile_append all (stops_append ends (by decide) breaks) offset
      have slice := here.slice
      rw [List.cons_append] at span ⊢
      rw [nextToken_of_visible (isVisible_of_startsWord starts), lexToken_of_startsWord starts,
        lexIdentOrKeyword, span]
      simp only [lexSlice, slice, bind, Except.bind]

/-- A string literal. -/
theorem Lexes.string {value quoted : List Char} (quotes : Quotes value quoted) (rest : List Char)
    : Lexes ('"' :: (quoted ++ ['"'])) (.string (String.ofList value)) rest where
  nonempty := List.cons_ne_nil _ _
  notEnd := nofun
  literal := nofun
  spelled := nofun
  reads source offset tail _ _ := by
    have size : bytes ('"' :: (quoted ++ ['"'])) = 1 + bytes quoted + 1 := by
      have ascii : '"'.utf8Size = 1 := rfl
      simp [bytes, ascii, Nat.add_assoc]
    have text : '"' :: (quoted ++ ['"']) ++ (rest ++ tail)
        = '"' :: (quoted ++ '"' :: (rest ++ tail)) := by simp
    have visible : isVisible ('"' :: (quoted ++ '"' :: (rest ++ tail))) :=
      isVisible_cons.mpr ⟨by decide, by simp⟩
    rw [text, size, nextToken_of_visible visible]
    simp only [lexToken, lexString, lexStringBody_of_quotes quotes, List.append_nil,
      List.reverse_reverse, Nat.add_assoc]

end

-- Numbers

/-- The text continues an integer literal to a float literal. -/
def hasFraction : List Char → Bool
  | point :: digit :: _ => point = '.' ∧ isDigit digit
  | _ => false

theorem hasFraction_append (breaks : isBreak tail)
    : hasFraction (rest ++ tail) = hasFraction rest := by
  have noDigit : isDigit '\n' = false := by decide
  cases tail with
  | nil => rw [List.append_nil]
  | cons first tail =>
    obtain rfl : first = '\n' := by simpa [isBreak] using breaks
    rcases rest with - | ⟨point, - | ⟨digit, rest⟩⟩
    · cases tail <;> simp [hasFraction]
    · simp [hasFraction, noDigit]
    · rfl

variable {digits : List Char}

theorem parseI64_digits {value : Int} (all : digits.all isDigit)
    (parsed : Text.parseI64 (String.ofList digits) = some value) : 0 ≤ value ∧ value < 2 ^ 63 := by
  rw [Text.parseI64, String.toList_ofList] at parsed
  split at parsed
  · exact absurd all (by simp [isDigit])
  · exact absurd all (by simp [isDigit])
  · split at parsed
    · split at parsed
      · obtain rfl := Option.some.inj parsed
        omega
      · cases parsed
    · cases parsed

section

variable {source digits rest : List Char} {offset : Nat}

theorem lexNumber_int (all : digits.all isDigit) (ends : stops isDigit rest)
    (whole : hasFraction rest = false)
    : lexNumber source ⟨offset, digits ++ rest⟩
      = lexInt source offset ⟨offset + bytes digits, rest⟩ := by
  rw [lexNumber, spanWhile_append all ends]
  dsimp only
  split
  · rw [if_neg (by simpa [hasFraction] using whole)]
  · rfl

theorem lexNumber_float {fraction : List Char} (all : digits.all isDigit) (nonempty : fraction ≠ [])
    (more : fraction.all isDigit) (ends : stops isDigit rest)
    : lexNumber source ⟨offset, digits ++ '.' :: (fraction ++ rest)⟩
      = lexFloat source offset ⟨offset + bytes (digits ++ '.' :: fraction), rest⟩ := by
  have point : '.'.utf8Size = 1 := rfl
  have atPoint : stops isDigit ('.' :: (fraction ++ rest)) := rfl
  cases fraction with
  | nil => exact absurd rfl nonempty
  | cons digit fraction =>
    have span := spanWhile_append more ends (offset + bytes digits + 1)
    obtain ⟨isDigit, -⟩ : isDigit digit ∧ fraction.all isDigit := by simpa using more
    rw [List.cons_append] at atPoint span
    rw [lexNumber, List.cons_append, spanWhile_append all atPoint]
    simp only [isDigit, if_true, span]
    simp only [bytes_append, bytes_cons, point, Nat.add_assoc]

end

/-- An integer literal. -/
theorem Lexes.int {value : Int} (nonempty : digits ≠ [])
    (all : digits.all isDigit) (ends : stops isDigit rest) (whole : hasFraction rest = false)
    (parsed : Text.parseI64 (String.ofList digits) = some value)
    : Lexes digits (.int value) rest where
  nonempty := nonempty
  notEnd := nofun
  literal value same := by
    cases same
    exact parseI64_digits all parsed
  spelled := nofun
  reads source offset tail breaks here := by
    have number := @lexNumber_int source digits (rest ++ tail) offset all
      (stops_append ends (by decide) breaks) (by rw [hasFraction_append breaks, whole])
    cases digits with
    | nil => exact absurd rfl nonempty
    | cons digit digits =>
      have slice := here.slice
      obtain ⟨isDigit, -⟩ : isDigit digit ∧ digits.all isDigit := by simpa using all
      rw [List.cons_append] at number ⊢
      rw [nextToken_of_visible (isVisible_of_isDigit isDigit), lexToken_of_isDigit isDigit, number]
      simp only [lexInt, lexSlice, slice, bind, Except.bind, parsed]

/-- A float literal. -/
theorem Lexes.float {fraction : List Char} {value : Binary64} (nonempty : digits ≠ [])
    (all : digits.all isDigit) (fractional : fraction ≠ []) (more : fraction.all isDigit)
    (ends : stops isDigit rest) (parsed : parseFloat (digits ++ '.' :: fraction) = some value)
    : Lexes (digits ++ '.' :: fraction) (.float value) rest where
  nonempty := by simp
  notEnd := nofun
  literal := nofun
  spelled := nofun
  reads source offset tail breaks here := by
    have slice := here.slice
    have number := @lexNumber_float source digits (rest ++ tail) offset fraction all fractional more
      (stops_append ends (by decide) breaks)
    rw [List.append_assoc, List.cons_append]
    cases digits with
    | nil => exact absurd rfl nonempty
    | cons digit digits =>
      obtain ⟨isDigit, -⟩ : isDigit digit ∧ digits.all isDigit := by simpa using all
      rw [List.cons_append] at number ⊢
      rw [nextToken_of_visible (isVisible_of_isDigit isDigit), lexToken_of_isDigit isDigit, number]
      simp only [lexFloat, lexSlice, slice, bind, Except.bind, parsed]

-- The next token of any source

/-- The text starts with a token, or reading one fails with an error and nothing worse. -/
def Starts (text : List Char) (result : LexResult (Token × LexState)) : Prop :=
  (∃ front kind rest, text = front ++ rest ∧ Lexes front kind rest)
    ∨ ∃ error, result = .error (.err error)

theorem lexStringBody_spec (before : List Char) (offset : Nat) (text : List Char)
    : (∃ value quoted rest, text = quoted ++ '"' :: rest ∧ Quotes value quoted)
      ∨ ∃ message, lexStringBody before offset text = .error message := by
  induction before, offset, text using lexStringBody.induct with
  | case1 => exact .inr ⟨_, rfl⟩
  | case2 before offset rest => exact .inl ⟨[], [], rest, rfl, .nil⟩
  | case3 => exact .inr ⟨_, rfl⟩
  | case4 before offset char text ih =>
    rcases ih with ⟨value, quoted, rest, rfl, quotes⟩ | ⟨message, failed⟩
    · exact .inl ⟨_, '\\' :: char :: quoted, rest, rfl, quotes.escaped⟩
    · exact .inr ⟨message, failed⟩
  | case5 before offset char text noQuote noEnd noEscape ih =>
    rcases ih with ⟨value, quoted, rest, rfl, quotes⟩ | ⟨message, failed⟩
    · have noBackslash : char ≠ '\\' := by
        rintro rfl
        cases quoted <;> exact noEscape _ _ rfl rfl
      exact .inl ⟨_, char :: quoted, rest, rfl, quotes.plain noQuote noBackslash⟩
    · refine .inr ⟨message, ?_⟩
      rw [lexStringBody.eq_5 _ _ _ _ noQuote noEnd noEscape, failed]

section

variable {source rest : List Char} {char : Char} {offset : Nat}

theorem starts_number (digit : isDigit char) (here : At source ⟨offset, char :: rest⟩)
    : Starts (char :: rest) (lexNumber source ⟨offset, char :: rest⟩) := by
  obtain ⟨digits, later, split, nonempty, all, ends⟩ : ∃ digits later, char :: rest = digits ++ later
      ∧ digits ≠ [] ∧ digits.all isDigit ∧ stops isDigit later :=
    ⟨_, _, List.takeWhile_append_dropWhile.symm, by simp [List.takeWhile_cons_of_pos digit],
      List.all_takeWhile, stops_dropWhile isDigit _⟩
  rw [split] at here ⊢
  by_cases fractional : hasFraction later
  · obtain ⟨fraction, later, rfl, nonemptyFraction, more, ends⟩ : ∃ fraction more,
        later = '.' :: (fraction ++ more) ∧ fraction ≠ [] ∧ fraction.all isDigit
        ∧ stops isDigit more := by
      rcases later with - | ⟨point, - | ⟨first, later⟩⟩
      · cases fractional
      · cases fractional
      · obtain ⟨rfl, first⟩ : point = '.' ∧ isDigit first := by simpa [hasFraction] using fractional
        exact ⟨_, _, congrArg _ List.takeWhile_append_dropWhile.symm,
          by simp [List.takeWhile_cons_of_pos first], List.all_takeWhile, stops_dropWhile isDigit _⟩
    cases parsed : parseFloat (digits ++ '.' :: fraction) with
    | some value =>
      exact .inl ⟨digits ++ '.' :: fraction, .float value, later, by simp,
        .float nonempty all nonemptyFraction more ends parsed⟩
    | none =>
      have whole : At source ⟨offset, (digits ++ '.' :: fraction) ++ later⟩ := by simpa using here
      rw [lexNumber_float all nonemptyFraction more ends]
      simp only [Starts, lexFloat, lexSlice, whole.slice, bind, Except.bind, parsed]
      exact .inr ⟨_, rfl⟩
  · have whole := eq_false_of_ne_true fractional
    cases parsed : Text.parseI64 (String.ofList digits) with
    | some value => exact .inl ⟨digits, .int value, later, rfl, .int nonempty all ends whole parsed⟩
    | none =>
      rw [lexNumber_int all ends whole]
      simp only [Starts, lexInt, lexSlice, here.slice, bind, Except.bind, parsed]
      exact .inr ⟨_, rfl⟩

theorem starts_word (starts : startsWord char) (result : LexResult (Token × LexState))
    : Starts (char :: rest) result := by
  have continues : continuesWord char := (continuesWord_iff char).mpr (.inl starts)
  refine .inl ⟨_, _, _, List.takeWhile_append_dropWhile.symm,
    .word ?_ (stops_dropWhile continuesWord (char :: rest))⟩
  rw [List.takeWhile_cons_of_pos continues]
  simp [isWord, starts]

theorem starts_string (here : At source ⟨offset, '"' :: rest⟩)
    : Starts ('"' :: rest) (lexString source offset rest) := by
  rcases lexStringBody_spec [] (offset + 1) rest with ⟨value, quoted, later, rfl, quotes⟩ | failed
  · exact .inl ⟨_, _, later, by simp, Lexes.string quotes later⟩
  · obtain ⟨message, failed⟩ := failed
    rw [lexString, failed]
    exact .inr ⟨_, rfl⟩

theorem starts_symbol (ascii : char.utf8Size = 1)
    (plain : kind ≠ .eof ∧ (∀ value, kind ≠ .int value) ∧ ¬ Parser.looksLikeIdent kind)
    (visible : isVisible (char :: rest))
    (read : ∀ source offset tail, isBreak tail
      → lexToken source offset char (rest ++ tail) = symbol kind offset 1 (rest ++ tail))
    : Starts (char :: rest) (symbol kind offset 1 rest) :=
  .inl ⟨[char], kind, rest, rfl, .symbol 1 (by simp [bytes, ascii]) visible plain read⟩

theorem starts_pair {second : Char} (ascii : bytes [char, second] = 2)
    (plain : kind ≠ .eof ∧ (∀ value, kind ≠ .int value) ∧ ¬ Parser.looksLikeIdent kind)
    (visible : isVisible (char :: second :: rest))
    (read : ∀ source offset rest, lexToken source offset char (second :: rest)
      = symbol kind offset 2 rest)
    : Starts (char :: second :: rest) (symbol kind offset 2 rest) :=
  .inl ⟨[char, second], kind, rest, rfl,
    .symbol 2 ascii visible plain fun source offset tail _ => read source offset (rest ++ tail)⟩

/-- A visible text starts with a token, or the tokenizer fails with an error. -/
theorem starts_token (visible : isVisible (char :: rest)) (here : At source ⟨offset, char :: rest⟩)
    : Starts (char :: rest) (lexToken source offset char rest) := by
  unfold lexToken
  split
  case h_15 other =>
    exact starts_symbol rfl ⟨nofun, nofun, nofun⟩ visible fun source offset tail breaks =>
      lexToken.eq_15 source offset _ (append_ne_cons (by decide) breaks other)
  case h_17 other =>
    exact starts_symbol rfl ⟨nofun, nofun, nofun⟩ visible fun source offset tail breaks =>
      lexToken.eq_17 source offset _ (append_ne_cons (by decide) breaks other)
  case h_20 => exact starts_string here
  case h_21 =>
    split
    · exact starts_number (by assumption) here
    · split
      · exact starts_word (by assumption) _
      · exact .inr ⟨_, rfl⟩
  all_goals first
    | exact .inr ⟨_, rfl⟩
    | exact starts_pair rfl ⟨nofun, nofun, nofun⟩ visible fun _ _ _ => rfl
    | exact starts_symbol rfl ⟨nofun, nofun, nofun⟩ visible fun _ _ _ _ => rfl

end
end Epochs.Ql
