import Epochs.Lib.Text
import Mathlib.Data.List.Basic

/-! Words and lines of texts: what splitting gives back of what was joined, and what the parts
of a split can be.
-/

namespace Epochs.Lib.Text

/-- A text is displayed as it is. -/
@[simp]
theorem toString_text (text : String) : toString text = text := rfl

-- Splitting at characters

variable {isSeparator : Char → Bool}

theorem splitChars_ne_nil (isSeparator : Char → Bool) (chars : List Char)
    : splitChars isSeparator chars ≠ [] := by
  cases chars with
  | nil => simp [splitChars]
  | cons char rest =>
    rw [splitChars]
    split
    · simp
    · split <;> simp

variable {chars : List Char}

/-- Characters without a separator are one part. -/
theorem splitChars_of_none (none : ∀ char ∈ chars, isSeparator char = false)
    : splitChars isSeparator chars = [chars] := by
  induction chars with
  | nil => rfl
  | cons char rest ih =>
    have first : isSeparator char = false := none char List.mem_cons_self
    rw [splitChars, ih fun other member => none other (List.mem_cons_of_mem _ member)]
    simp [first]

variable {separator : Char}

/-- A separator ends a part. -/
theorem splitChars_append {front : List Char} (none : ∀ char ∈ front, isSeparator char = false)
    (separates : isSeparator separator = true) (rest : List Char)
    : splitChars isSeparator (front ++ separator :: rest)
      = front :: splitChars isSeparator rest := by
  induction front with
  | nil => simp [splitChars, separates]
  | cons char front ih =>
    have first : isSeparator char = false := none char List.mem_cons_self
    rw [List.cons_append, splitChars,
      ih fun other member => none other (List.mem_cons_of_mem _ member)]
    simp [first]

/-- No part of a split has a separator in it. -/
theorem separator_not_mem_splitChars {part : List Char}
    (member : part ∈ splitChars isSeparator chars)
    : ∀ char ∈ part, isSeparator char = false := by
  induction chars generalizing part with
  | nil =>
    rw [splitChars, List.mem_singleton] at member
    simp [member]
  | cons char rest ih =>
    rw [splitChars] at member
    split at member
    · rcases List.mem_cons.mp member with rfl | later
      · simp
      · exact ih later
    · rename_i inner
      split at member
      · rename_i absurd_
        exact absurd absurd_ (splitChars_ne_nil _ _)
      · rename_i front parts found
        rcases List.mem_cons.mp member with rfl | later
        · intro other inPart
          rcases List.mem_cons.mp inPart with rfl | inFront
          · simpa using inner
          · exact ih (by simp [found]) other inFront
        · exact ih (by simp [found, later])

variable {char : Char}

/-- The parts of a split have no other characters. -/
theorem mem_of_mem_splitChars {part : List Char}
    (member : part ∈ splitChars isSeparator chars) (inPart : char ∈ part)
    : char ∈ chars := by
  induction chars generalizing part with
  | nil =>
    rw [splitChars, List.mem_singleton] at member
    simp [member] at inPart
  | cons head rest ih =>
    rw [splitChars] at member
    split at member
    · rcases List.mem_cons.mp member with rfl | later
      · cases inPart
      · exact List.mem_cons_of_mem _ (ih later inPart)
    · split at member
      · rename_i absurd_
        exact absurd absurd_ (splitChars_ne_nil _ _)
      · rename_i front parts found
        rcases List.mem_cons.mp member with rfl | later
        · rcases List.mem_cons.mp inPart with rfl | inFront
          · exact List.mem_cons_self
          · exact List.mem_cons_of_mem _ (ih (by simp [found]) inFront)
        · exact List.mem_cons_of_mem _ (ih (by simp [found, later]) inPart)

variable {text : String}

/-- The first part of a text has only characters of the text before the separator. -/
theorem mem_toList_headD_split
    (member : char ∈ ((split separator text).headD "").toList)
    : char ∈ text.toList ∧ char ≠ separator := by
  unfold split at member
  cases parts : splitChars (· = separator) text.toList with
  | nil => exact absurd parts (splitChars_ne_nil _ _)
  | cons part rest =>
    have inSplit : part ∈ splitChars (· = separator) text.toList := by simp [parts]
    have inPart : char ∈ part := by simpa [parts] using member
    exact ⟨mem_of_mem_splitChars inSplit inPart,
      by simpa using separator_not_mem_splitChars inSplit char inPart⟩

/-- What stands before a separator is split on its own. -/
theorem splitChars_of_separator (front : List Char)
    (separates : isSeparator separator = true) (rest : List Char)
    : splitChars isSeparator (front ++ separator :: rest)
      = splitChars isSeparator front ++ splitChars isSeparator rest := by
  induction front with
  | nil => simp [splitChars, separates]
  | cons char front ih =>
    rw [List.cons_append, splitChars, splitChars, ih]
    split
    · rfl
    · cases found : splitChars isSeparator front with
      | nil => exact absurd found (splitChars_ne_nil _ _)
      | cons part parts => rfl

-- Words

/-- A text that is not empty and has no white space in it. -/
structure IsWord (text : String) : Prop where
  nonempty : text ≠ ""
  solid : ∀ char ∈ text.toList, isWhitespace char = false

instance (text : String) : Decidable (IsWord text) :=
  decidable_of_iff (text ≠ "" ∧ (text.toList.all fun char => !isWhitespace char) = true)
    ⟨fun ⟨nonempty, solid⟩ => ⟨nonempty, by simpa using solid⟩,
      fun word => ⟨word.nonempty, by simpa using word.solid⟩⟩

theorem IsWord.toList_ne_nil (word : IsWord text) : text.toList ≠ [] := by
  intro empty
  exact word.nonempty (String.toList_eq_nil_iff.mp empty)

/-- Every part of a text between white space is a word. -/
theorem isWord_of_mem_splitWhitespace {word : String}
    (member : word ∈ splitWhitespace text)
    : IsWord word := by
  simp only [splitWhitespace, List.mem_map, List.mem_filter] at member
  obtain ⟨chars, ⟨inSplit, nonempty⟩, rfl⟩ := member
  refine ⟨?_, ?_⟩
  · intro empty
    have : chars = [] := by simpa using congrArg String.toList empty
    simp [this] at nonempty
  · rw [String.toList_ofList]
    exact separator_not_mem_splitChars inSplit

abbrev unwords (words : List String) : String := join " " words

theorem toList_join_cons (separator first second : String) (rest : List String)
    : (join separator (first :: second :: rest)).toList
      = first.toList ++ (separator.toList ++ (join separator (second :: rest)).toList) := by
  simp [join]

variable {words : List String}

theorem splitWhitespace_chars_unwords (nonempty : words ≠ [])
    (each : ∀ word ∈ words, IsWord word)
    : splitChars isWhitespace (unwords words).toList = words.map String.toList := by
  induction words with
  | nil => exact absurd rfl nonempty
  | cons first rest ih =>
    have solid := (each first List.mem_cons_self).solid
    cases rest with
    | nil => simpa [unwords, join] using splitChars_of_none solid
    | cons second others =>
      have blank : isWhitespace ' ' = true := by decide
      rw [unwords, toList_join_cons, show (" " : String).toList = [' '] from rfl,
        List.singleton_append, splitChars_append solid blank,
        ih (by simp) fun word member => each word (List.mem_cons_of_mem _ member)]
      rfl

/-- Words joined by blanks are split into the same words. -/
theorem splitWhitespace_unwords (nonempty : words ≠ [])
    (each : ∀ word ∈ words, IsWord word)
    : splitWhitespace (unwords words) = words := by
  have kept : (words.map String.toList).filter (· ≠ []) = words.map String.toList := by
    rw [List.filter_eq_self]
    intro chars member
    obtain ⟨word, inWords, rfl⟩ := List.mem_map.mp member
    simpa using (each word inWords).toList_ne_nil
  rw [splitWhitespace, splitWhitespace_chars_unwords nonempty each, kept, List.map_map]
  simp

/-- A list of characters that neither begins nor ends with white space stays when trimmed. -/
theorem trimChars_of_solid
    (first : ∀ char ∈ chars.head?, isWhitespace char = false)
    (last : ∀ char ∈ chars.getLast?, isWhitespace char = false)
    : trimChars chars = chars := by
  have stays {list : List Char} (solid : ∀ char ∈ list.head?, isWhitespace char = false)
      : list.dropWhile isWhitespace = list := by
    cases list with
    | nil => rfl
    | cons char rest => simp [solid char rfl]
  rw [trimChars, stays first, stays (by rwa [List.head?_reverse]), List.reverse_reverse]

/-- What is left after trimming neither begins nor ends with white space. -/
theorem trimChars_solid (chars : List Char)
    : (∀ char ∈ (trimChars chars).head?, isWhitespace char = false)
      ∧ ∀ char ∈ (trimChars chars).getLast?, isWhitespace char = false := by
  have starts (list : List Char) : ∀ char ∈ (list.dropWhile isWhitespace).head?,
      isWhitespace char = false := by
    intro char first
    have none := List.head?_dropWhile_not isWhitespace list
    rw [Option.mem_def.mp first] at none
    exact none
  constructor
  · intro char first
    -- the front is what was left of the front by the first of the two passes
    have front : trimChars chars <+: chars.dropWhile isWhitespace := by
      have suffix := List.dropWhile_suffix (l := (chars.dropWhile isWhitespace).reverse) isWhitespace
      simpa [trimChars] using List.reverse_prefix.mpr suffix
    refine starts chars char ?_
    obtain ⟨rest, whole⟩ := front
    rw [← whole, List.head?_append, Option.mem_def.mp first]
    rfl
  · intro char last
    rw [trimChars, List.getLast?_reverse] at last
    exact starts _ char last

theorem trimChars_trimChars (chars : List Char) : trimChars (trimChars chars) = trimChars chars :=
  trimChars_of_solid (trimChars_solid chars).1 (trimChars_solid chars).2

theorem mem_of_mem_trimChars (member : char ∈ trimChars chars)
    : char ∈ chars := by
  rw [trimChars, List.mem_reverse] at member
  have inFront := (List.dropWhile_suffix isWhitespace).subset member
  rw [List.mem_reverse] at inFront
  exact (List.dropWhile_suffix isWhitespace).subset inFront

/-- A text that does not begin with white space begins the same when trimmed. -/
theorem head_trimChars (solid : isWhitespace char = false) (rest : List Char)
    : (trimChars (char :: rest)).head? = some char := by
  have front : (char :: rest).dropWhile isWhitespace = char :: rest := by simp [solid]
  rw [trimChars, front, List.head?_reverse, List.reverse_cons, List.dropWhile_append]
  split
  · simp [solid]
  · simp

theorem startsWith_hash (text : String)
    : startsWith text "#" = decide (text.toList.head? = some '#') := by
  rw [startsWith, stripFront, show "#".toList = ['#'] from rfl]
  cases text.toList with
  | nil => rfl
  | cons char rest =>
    by_cases same : '#' = char
    · subst same
      simp [stripChars]
    · simp [stripChars, same, Ne.symm same]

/-- White space at the end does not count. -/
theorem trimChars_concat (chars : List Char) {space : Char} (white : isWhitespace space = true)
    : trimChars (chars ++ [space]) = trimChars chars := by
  unfold trimChars
  rw [List.dropWhile_append]
  split
  · rename_i blank
    simp only [List.isEmpty_iff] at blank
    simp [blank, white]
  · simp [white]

theorem head_solid {word : String} (isWord : IsWord word)
    : ∀ char ∈ word.toList.head?, isWhitespace char = false :=
  fun char first => isWord.solid char (List.mem_of_mem_head? first)

/-- Words joined by blanks begin and end as their first and last word. -/
theorem trim_unwords (each : ∀ word ∈ words, IsWord word)
    : trim (unwords words) = unwords words := by
  have first : ∀ char ∈ (unwords words).toList.head?, isWhitespace char = false := by
    cases words with
    | nil => simp [unwords, join]
    | cons word rest =>
      have isWord := each word List.mem_cons_self
      cases rest with
      | nil => simpa [unwords, join] using head_solid isWord
      | cons second others =>
        rw [unwords, toList_join_cons, List.head?_append_of_ne_nil _ isWord.toList_ne_nil]
        exact head_solid isWord
  have last : ∀ char ∈ (unwords words).toList.getLast?, isWhitespace char = false := by
    clear first
    induction words with
    | nil => simp [unwords, join]
    | cons word rest ih =>
      cases rest with
      | nil =>
        intro char final
        exact (each word List.mem_cons_self).solid char
          (List.mem_of_getLast? (by simpa [unwords, join] using final))
      | cons second others =>
        have later := ih fun word member => each word (List.mem_cons_of_mem _ member)
        have nonempty : (join " " (second :: others)).toList ≠ [] := by
          have isWord := each second (by simp)
          cases others with
          | nil => simpa [join] using isWord.toList_ne_nil
          | cons third more =>
            rw [toList_join_cons]
            simp
        rw [unwords, toList_join_cons, List.getLast?_append_of_ne_nil _ (by simp),
          List.getLast?_append_of_ne_nil _ nonempty]
        exact later
  rw [trim, trimChars_of_solid first last, String.ofList_toList]

-- Lines

/-- A text that can stand as a line: no line feed in it and no carriage return at its end. -/
structure IsLine (line : String) : Prop where
  unbroken : '\n' ∉ line.toList
  uncut : line.toList.getLast? ≠ some '\r'

def unlines (lines : List String) : String := join "" (lines.map (· ++ "\n"))

theorem toList_join_empty (texts : List String)
    : (join "" texts).toList = (texts.map String.toList).flatten := by
  induction texts with
  | nil => rfl
  | cons first rest ih =>
    cases rest with
    | nil => simp [join]
    | cons second others =>
      rw [toList_join_cons, ih]
      simp

theorem toList_unlines_cons (line : String) (rest : List String)
    : (unlines (line :: rest)).toList = line.toList ++ '\n' :: (unlines rest).toList := by
  simp [unlines, toList_join_empty]

theorem splitChars_unlines (lines : List String)
    : splitChars (· = '\n') (unlines lines).toList
      = (lines.flatMap fun line => splitChars (· = '\n') line.toList) ++ [[]] := by
  induction lines with
  | nil => rfl
  | cons line rest ih =>
    rw [toList_unlines_cons, splitChars_of_separator _ (by decide), ih, List.flatMap_cons,
      List.append_assoc]

/-- The lines of a text written line by line: those of each part on its own. -/
theorem lines_unlines_eq (lines : List String)
    : Text.lines (unlines lines)
      = lines.flatMap fun line =>
          (splitChars (· = '\n') line.toList).map fun part => String.ofList (dropReturn part) := by
  simp [Text.lines, splitChars_unlines, List.map_flatMap, Function.comp_def]

theorem IsLine.split {line : String} (isLine : IsLine line)
    : (splitChars (· = '\n') line.toList).map (fun part => String.ofList (dropReturn part))
      = [line] := by
  have none : ∀ char ∈ line.toList, decide (char = '\n') = false := by
    intro char member
    rw [decide_eq_false_iff_not]
    rintro rfl
    exact isLine.unbroken member
  rw [splitChars_of_none none, List.map_singleton, dropReturn, if_neg isLine.uncut,
    String.ofList_toList]

/-- Lines written with their line feeds are read back. -/
theorem lines_unlines {lines : List String} (each : ∀ line ∈ lines, IsLine line)
    : Text.lines (unlines lines) = lines := by
  rw [lines_unlines_eq]
  induction lines with
  | nil => rfl
  | cons line rest ih =>
    rw [List.flatMap_cons, (each line List.mem_cons_self).split,
      ih fun line member => each line (List.mem_cons_of_mem _ member), List.singleton_append]

/-- A line is read back whatever is written around it. -/
theorem mem_lines_unlines {line : String} {lines : List String} (member : line ∈ lines)
    (isLine : IsLine line)
    : line ∈ Text.lines (unlines lines) := by
  rw [lines_unlines_eq, List.mem_flatMap]
  exact ⟨line, member, by simp [isLine.split]⟩

/-- Words joined by blanks can stand as a line. -/
theorem isLine_unwords (each : ∀ word ∈ words, IsWord word)
    : IsLine (unwords words) := by
  have chars : ∀ char ∈ (unwords words).toList, isWhitespace char = true → char = ' ' := by
    induction words with
    | nil => simp [unwords, join]
    | cons word rest ih =>
      have solid := (each word List.mem_cons_self).solid
      intro char member blank
      cases rest with
      | nil => simp [solid char (by simpa [unwords, join] using member)] at blank
      | cons second others =>
        rw [unwords, toList_join_cons, List.mem_append, List.mem_append] at member
        rcases member with inFirst | inBlank | later
        · simp [solid char inFirst] at blank
        · simpa using inBlank
        · exact ih (fun word member => each word (List.mem_cons_of_mem _ member)) char later
            blank
  refine ⟨fun member => ?_, fun final => ?_⟩
  · simpa using chars '\n' member (by decide)
  · simpa using chars '\r' (List.mem_of_getLast? final) (by decide)

end Epochs.Lib.Text
