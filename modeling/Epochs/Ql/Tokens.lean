import Epochs.Ql.Lexing

/-! The tokens of a source: a text that is put together from lexemes is tokenized into them, and the
tokens of any source tile it.
-/

namespace Epochs.Ql

open Lib

-- Texts put together from lexemes

abbrev Lexeme := TokenKind × List Char

section Source

variable {source : List Char}

/-- A token of the source for a lexeme. -/
structure Bears (source : List Char) (token : Token) (lexeme : Lexeme) : Prop where
  kind : token.kind = lexeme.1
  slice : sliceSource source token.offset token.stop = some lexeme.2

/-- From wherever the text stands in the source, the tokenizer reads the lexemes. -/
def Reads (source text : List Char) (lexemes : List Lexeme) : Prop :=
  ∀ offset budget, At source ⟨offset, text⟩ → text.length < budget
    → ∃ tokens, tokenizeFrom source budget ⟨offset, text⟩ = .ok tokens
      ∧ List.Forall₂ (Bears source) tokens lexemes

theorem Reads.nil : Reads source [] [(.eof, [])] := by
  intro offset budget here room
  cases budget with
  | zero => cases room
  | succ budget =>
    have slice : sliceSource source offset (offset + bytes []) = some [] := At.slice here
    exact ⟨[⟨.eof, offset, offset⟩], rfl, .cons ⟨rfl, slice⟩ .nil⟩

/-- What the tokenizer reads at one place decides what it reads from there on. -/
theorem Reads.lexeme {text rest tail : List Char} {kind : TokenKind} {lexemes : List Lexeme}
    (lexes : Lexes text kind rest) (breaks : isBreak tail)
    (later : Reads source (rest ++ tail) lexemes)
    : Reads source (text ++ (rest ++ tail)) ((kind, text) :: lexemes) := by
  intro offset budget here room
  cases budget with
  | zero => cases room
  | succ budget =>
    have longer : (rest ++ tail).length < budget := by
      have positive := List.length_pos_of_ne_nil lexes.nonempty
      rw [List.length_append] at room
      omega
    obtain ⟨tokens, read, bears⟩ := later _ budget here.skip longer
    refine ⟨⟨kind, offset, offset + bytes text⟩ :: tokens, ?_, .cons ⟨rfl, here.slice⟩ bears⟩
    rw [tokenizeFrom, lexes.reads source offset tail breaks here]
    simp only [bind, Except.bind, if_neg lexes.notEnd, read]

theorem Reads.cons {text rest : List Char} {kind : TokenKind} {lexemes : List Lexeme}
    (lexes : Lexes text kind rest) (later : Reads source rest lexemes)
    : Reads source (text ++ rest) ((kind, text) :: lexemes) := by
  have reads := @Reads.lexeme source text rest [] kind lexemes lexes rfl
  rw [List.append_nil] at reads
  exact reads later

/-- The tokenizer reads past a gap. -/
theorem nextToken_gap {last : Bool} {gap rest : List Char} (blank : Gap last gap)
    (ended : last → isBreak rest) (source : List Char) (offset : Nat)
    : nextToken source ⟨offset, gap ++ rest⟩ = nextToken source ⟨offset + bytes gap, rest⟩ := by
  rw [nextToken, nextToken, skipBlank_gap blank ended]

theorem Reads.gap {last : Bool} {gap rest : List Char} {lexemes : List Lexeme} (blank : Gap last gap)
    (ended : last → isBreak rest) (later : Reads source rest lexemes)
    : Reads source (gap ++ rest) lexemes := by
  intro offset budget here room
  cases budget with
  | zero => cases room
  | succ budget =>
    obtain ⟨tokens, read, bears⟩ := later _ (budget + 1) here.skip
      (by rw [List.length_append] at room; omega)
    refine ⟨tokens, ?_, bears⟩
    rw [← read, tokenizeFrom, tokenizeFrom, nextToken_gap blank ended]

theorem Reads.blank {char : Char} {rest : List Char} {lexemes : List Lexeme}
    (white : Text.isWhitespace char) (later : Reads source rest lexemes)
    : Reads source (char :: rest) lexemes :=
  @Reads.gap source false [char] rest lexemes (.white white .nil) nofun later

variable {rest : List Char} {lexemes : List Lexeme}

/-- A symbol of one character that starts nothing longer. -/
theorem Reads.symbol {char : Char} {kind : TokenKind}
    (alone : ∀ source offset rest, lexToken source offset char rest = Ql.symbol kind offset 1 rest)
    (visible : isVisible (char :: rest)) (ascii : char.utf8Size = 1)
    (plain : kind ≠ .eof ∧ (∀ value, kind ≠ .int value) ∧ ¬ Parser.looksLikeIdent kind)
    (later : Reads source rest lexemes)
    : Reads source (char :: rest) ((kind, [char]) :: lexemes) := by
  have lexes : Lexes [char] kind rest :=
    .symbol 1 (by simp [bytes, ascii]) visible plain fun source offset tail _ =>
      alone source offset (rest ++ tail)
  exact Reads.cons lexes later

/-- A word before something that does not continue it. -/
theorem Reads.word {word : List Char} (isWord : isWord word)
    (ends : endsWord rest) (later : Reads source rest lexemes)
    : Reads source (word ++ rest) ((keywordOrIdent (String.ofList word), word) :: lexemes) :=
  Reads.cons (.word isWord ends) later

/-- A string literal. -/
theorem Reads.string {value quoted : List Char}
    (quotes : Quotes value quoted) (later : Reads source rest lexemes)
    : Reads source ('"' :: quoted ++ '"' :: rest)
        ((.string (String.ofList value), '"' :: quoted ++ ['"']) :: lexemes) := by
  have reads := Reads.cons (Lexes.string quotes rest) later
  simpa using reads

/-- A text that is put together from lexemes is tokenized into them. -/
theorem Reads.tokenize (reads : Reads source source lexemes)
    : ∃ tokens, Ql.tokenize source = .ok tokens ∧ List.Forall₂ (Bears source) tokens lexemes :=
  reads 0 _ (at_start source) (Nat.lt_succ_self _)

-- How a source is cut into tokens

/-- From a byte offset on the text is cut into gaps and tokens. -/
inductive Cuts : (offset : Nat) → (text : List Char) → List Token → Prop
  | eof {offset : Nat} {gap : List Char} (blank : Gap true gap)
      : Cuts offset gap [⟨.eof, offset + bytes gap, offset + bytes gap⟩]
  | token {offset : Nat} {gap text rest : List Char} {kind : TokenKind} {tokens : List Token}
      (blank : Gap false gap) (lexes : Lexes text kind rest)
      (later : Cuts (offset + bytes gap + bytes text) rest tokens)
      : Cuts offset (gap ++ (text ++ rest))
          (⟨kind, offset + bytes gap, offset + bytes gap + bytes text⟩ :: tokens)

/-- The tokenizer cuts what is left of the source into tokens, or it fails with an error. -/
theorem tokenizeFrom_spec {budget offset : Nat} {text : List Char} (here : At source ⟨offset, text⟩)
    (room : text.length < budget)
    : (∃ tokens, tokenizeFrom source budget ⟨offset, text⟩ = .ok tokens ∧ Cuts offset text tokens)
      ∨ ∃ error, tokenizeFrom source budget ⟨offset, text⟩ = .error (.err error) := by
  induction budget generalizing offset text with
  | zero => cases room
  | succ budget ih =>
    obtain ⟨gap, rest, rfl, skipped, visible, blank⟩ := skipBlank_spec false offset text
    cases rest with
    | nil =>
      refine .inl ⟨[⟨.eof, offset + bytes gap, offset + bytes gap⟩], ?_, ?_⟩
      · rw [tokenizeFrom, nextToken, skipped]
        rfl
      · rw [List.append_nil]
        exact .eof blank
    | cons char rest =>
      have started := starts_token visible here.skip
      rw [← nextToken_of_visible visible] at started
      rw [tokenizeFrom, @nextToken_gap false gap (char :: rest) blank (by simp)]
      rcases started with ⟨front, kind, later, split, lexes⟩ | ⟨error, failed⟩
      · rw [split] at here room ⊢
        have next := lexes.reads source (offset + bytes gap) []
        rw [List.append_nil] at next
        have shorter : later.length < budget := by
          have positive := List.length_pos_of_ne_nil lexes.nonempty
          rw [List.length_append, List.length_append] at room
          omega
        simp only [next rfl here.skip, bind, Except.bind, if_neg lexes.notEnd]
        rcases ih here.skip.skip shorter with ⟨tokens, read, cuts⟩ | ⟨error, failed⟩
        · rw [read]
          exact .inl ⟨_, rfl, .token blank lexes cuts⟩
        · rw [failed]
          exact .inr ⟨error, rfl⟩
      · rw [failed]
        exact .inr ⟨error, rfl⟩

theorem tokenize_spec (source : List Char)
    : (∃ tokens, tokenize source = .ok tokens ∧ Cuts 0 source tokens)
      ∨ ∃ error, tokenize source = .error (.err error) :=
  tokenizeFrom_spec (at_start source) (Nat.lt_succ_self _)

theorem cuts_of_tokenize {tokens : List Token} (read : tokenize source = .ok tokens)
    : Cuts 0 source tokens := by
  rcases tokenize_spec source with ⟨others, same, cuts⟩ | ⟨error, failed⟩
  · rw [read] at same
    cases same
    exact cuts
  · rw [read] at failed
    cases failed

section

variable {offset : Nat} {text : List Char} {tokens : List Token}

/-- Each token is a lexeme of the source, or it is the end of the source. -/
theorem Cuts.lexes (cuts : Cuts offset text tokens) (here : At source ⟨offset, text⟩)
    : ∀ token ∈ tokens, offset ≤ token.offset
      ∧ ((token.kind = .eof ∧ token.offset = bytes source ∧ token.stop = bytes source)
        ∨ ∃ front rest, sliceSource source token.offset token.stop = some front
          ∧ token.stop = token.offset + bytes front ∧ Lexes front token.kind rest) := by
  induction cuts with
  | @eof offset gap blank =>
    have whole : offset + bytes gap = bytes source := by
      obtain ⟨front, rfl, size⟩ := here
      rw [bytes_append]
      exact congrArg (· + bytes gap) size
    intro token member
    obtain rfl := List.mem_singleton.mp member
    exact ⟨Nat.le_add_right _ _, .inl ⟨rfl, whole, whole⟩⟩
  | @token offset gap text rest kind tokens blank lexes _ ih =>
    refine List.forall_mem_cons.mpr ⟨⟨Nat.le_add_right _ _, .inr ?_⟩, fun token member => ?_⟩
    · exact ⟨text, rest, here.skip.slice, rfl, lexes⟩
    · obtain ⟨after, covered⟩ := ih here.skip.skip token member
      exact ⟨by omega, covered⟩

/-- The end of the source is the last token and no other. -/
theorem Cuts.ends (cuts : Cuts offset text tokens)
    : ∃ front last, tokens = front ++ [last] ∧ last.kind = .eof ∧ ∀ token ∈ front, token.kind ≠ .eof := by
  induction cuts with
  | eof => exact ⟨[], _, rfl, rfl, nofun⟩
  | token blank lexes _ ih =>
    obtain ⟨front, last, rfl, isEnd, others⟩ := ih
    exact ⟨_ :: front, last, rfl, isEnd, List.forall_mem_cons.mpr ⟨lexes.notEnd, others⟩⟩

theorem Cuts.ordered (cuts : Cuts offset text tokens) (here : At source ⟨offset, text⟩)
    : tokens.Pairwise fun earlier later => earlier.stop ≤ later.offset := by
  induction cuts with
  | eof => exact List.pairwise_singleton _ _
  | token blank lexes later ih =>
    exact .cons (fun token member => (later.lexes here.skip.skip token member).1)
      (ih here.skip.skip)

def stopAfter (start : Nat) : List Token → Nat
  | [] => start
  | token :: rest => stopAfter token.stop rest

/-- Before each token there is a gap. -/
theorem Cuts.gaps (cuts : Cuts offset text tokens) (here : At source ⟨offset, text⟩)
    {before after : List Token} {token : Token} (split : tokens = before ++ token :: after)
    : ∃ gap, sliceSource source (stopAfter offset before) token.offset = some gap
      ∧ Gap after.isEmpty gap := by
  induction cuts generalizing before with
  | @eof offset gap blank =>
    cases before with
    | nil =>
      cases split
      rw [← List.append_nil gap] at here
      exact ⟨gap, here.slice, blank⟩
    | cons first before => simp at split
  | @token offset gap text rest kind tokens blank lexes later ih =>
    cases before with
    | nil =>
      obtain ⟨rfl, rfl⟩ := List.cons.inj split
      refine ⟨gap, here.slice, ?_⟩
      cases later <;> exact blank
    | cons first before =>
      obtain ⟨rfl, later⟩ := List.cons.inj split
      exact ih here.skip.skip later

end

-- Tokens tile the source

/-- The tokens tile the source. The last one is the end of the source, the others are not empty, and
between two of them, as well as before the first, there is nothing but a gap.
-/
structure Tiles (source : List Char) (tokens : List Token) : Prop where
  ends : ∃ front last, tokens = front ++ [last] ∧ last.kind = .eof
    ∧ ∀ token ∈ front, token.kind ≠ .eof
  whole : ∀ token ∈ tokens, token.kind = .eof
    → token.offset = bytes source ∧ token.stop = bytes source
  ordered : tokens.Pairwise fun earlier later => earlier.stop ≤ later.offset
  nonempty : ∀ token ∈ tokens, token.kind ≠ .eof
    → token.offset < token.stop ∧ (sliceSource source token.offset token.stop).isSome
  gaps : ∀ before token after, tokens = before ++ token :: after
    → ∃ gap, sliceSource source (stopAfter 0 before) token.offset = some gap
      ∧ Gap after.isEmpty gap

theorem bytes_pos {text : List Char} (nonempty : text ≠ []) : 0 < bytes text := by
  cases text with
  | nil => exact absurd rfl nonempty
  | cons char text =>
    have positive := char.utf8Size_pos
    rw [bytes_cons]
    omega

/-- Whatever source the tokenizer accepts, its tokens tile it. -/
theorem tokenize_tiles {tokens : List Token} (read : tokenize source = .ok tokens)
    : Tiles source tokens := by
  have cuts := cuts_of_tokenize read
  have lexes := cuts.lexes (at_start source)
  refine ⟨cuts.ends, fun token member isEnd => ?_, cuts.ordered (at_start source),
    fun token member notEnd => ?_, fun before token after => cuts.gaps (at_start source)⟩
  · obtain ⟨-, ⟨-, whole⟩ | ⟨_, _, -, -, lexeme⟩⟩ := lexes token member
    · exact whole
    · exact absurd isEnd lexeme.notEnd
  · obtain ⟨-, ⟨isEnd, -⟩ | ⟨front, _, slice, stop, lexeme⟩⟩ := lexes token member
    · exact absurd isEnd notEnd
    · have positive := bytes_pos lexeme.nonempty
      exact ⟨by omega, by rw [slice]; rfl⟩

theorem tokenize_tiles_comment
    : ∃ tokens, tokenize "USE -- x\n\"é\" --".toList = .ok tokens
      ∧ Tiles "USE -- x\n\"é\" --".toList tokens :=
  ⟨[⟨.use, 0, 3⟩, ⟨.string "é", 9, 13⟩, ⟨.eof, 16, 16⟩], by decide, tokenize_tiles (by decide)⟩

-- The words of any source

/-- What can be read as an identifier is spelled as a word in the source. -/
def Spelled (source : List Char) (token : Token) : Prop :=
  Parser.looksLikeIdent token.kind
    → ∃ word, sliceSource source token.offset token.stop = some word ∧ isWord word

/-- What can be read as an identifier is spelled as a word. -/
theorem tokenize_spelled {tokens : List Token} (read : tokenize source = .ok tokens)
    : ∀ token ∈ tokens, Spelled source token := by
  intro token member looks
  obtain ⟨-, ⟨isEnd, -⟩ | ⟨front, _, slice, -, lexeme⟩⟩ :=
    (cuts_of_tokenize read).lexes (at_start source) token member
  · exact absurd isEnd (ne_eof_of_looksLikeIdent looks)
  · exact ⟨front, slice, lexeme.spelled looks⟩

end Source
end Epochs.Ql
