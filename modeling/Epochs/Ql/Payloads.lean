import Epochs.Lib.LossyText
import Epochs.Lib.Words
import Epochs.Ql.Engine
import Epochs.Ql.Lexing

/-! Nested payloads as flat documents: the scalars of a payload are written under dotted keys, and are
found again under the paths that lead to them.
-/

namespace Epochs.Ql

open Lib

-- Dotted keys

abbrev dotted (path : List String) : String := Text.join "." path

def Named (path : List String) : Prop := ∀ part ∈ path, isWord part.toList

variable {path : List String}

theorem dotted_concat (nonempty : path ≠ []) (key : String)
    : dotted (path ++ [key]) = dotted path ++ "." ++ key := by
  induction path with
  | nil => exact absurd rfl nonempty
  | cons first rest ih =>
    cases rest with
    | nil => rfl
    | cons second rest =>
      have later := ih (List.cons_ne_nil _ _)
      simp only [dotted, List.cons_append, Text.join] at later ⊢
      rw [later]
      simp [String.append_assoc]

theorem ne_dot_of_isWord {word : List Char} (isWord_ : isWord word) : ∀ char ∈ word, char ≠ '.' := by
  cases word with
  | nil => simp
  | cons first rest =>
    obtain ⟨starts, continues⟩ : startsWord first ∧ rest.all continuesWord := by
      simpa [isWord] using isWord_
    intro char member
    rcases List.mem_cons.mp member with rfl | later
    · rintro rfl
      cases starts
    · rintro rfl
      cases List.all_eq_true.mp continues '.' later

theorem ne_nil_of_isWord {word : List Char} (isWord_ : isWord word) : word ≠ [] := by
  rintro rfl
  cases isWord_

theorem splitChars_dotted (nonempty : path ≠ []) (named : Named path)
    : Text.splitChars (· = '.') (dotted path).toList = path.map String.toList := by
  induction path with
  | nil => exact absurd rfl nonempty
  | cons first rest ih =>
    obtain ⟨word, words⟩ := List.forall_mem_cons.mp named
    have solid : ∀ char ∈ first.toList, decide (char = '.') = false := by
      simpa using ne_dot_of_isWord word
    cases rest with
    | nil => exact Text.splitChars_of_none solid
    | cons second rest =>
      have chars : (dotted (first :: second :: rest)).toList
          = first.toList ++ '.' :: (dotted (second :: rest)).toList := by
        simp [dotted, Text.join]
      rw [chars, Text.splitChars_append solid (by decide), ih (List.cons_ne_nil _ _) words]
      rfl

theorem dotted_ne_empty (nonempty : path ≠ []) (named : Named path)
    : dotted path ≠ "" := by
  intro empty
  have split := splitChars_dotted nonempty named
  obtain ⟨first, rest, rfl⟩ := List.exists_cons_of_ne_nil nonempty
  rw [empty] at split
  have word := ne_nil_of_isWord (named first List.mem_cons_self)
  simp only [String.toList_empty, Text.splitChars, List.map_cons, List.cons.injEq] at split
  exact word split.1.symm

-- The scalars of a payload

def Value.storageText : Value → Option String
  | .null => some ""
  | .bool value => some (if value then "true" else "false")
  | .int value => some (toString value)
  | .float value => some value.display
  | .string value => some value
  | .map _ => none

mutual

/-- At every depth the keys are identifiers, and no map has a key twice. -/
def Value.KeysNamed : Value → Prop
  | .map entries => EntriesNamed entries
  | _ => True

def EntriesNamed : List (String × Value) → Prop
  | [] => True
  | (key, value) :: rest =>
    isWord key.toList ∧ key ∉ AssocMap.keys rest ∧ value.KeysNamed ∧ EntriesNamed rest

end

mutual

/-- The scalars of a value, each with the path that leads to it and the text it is stored as. -/
def leaves (path : List String) : Value → List (List String × String)
  | .map entries => leavesOf path entries
  | scalar => scalar.storageText.toList.map fun text => (path, text)

def leavesOf (path : List String) : List (String × Value) → List (List String × String)
  | [] => []
  | (key, value) :: rest => leaves (path ++ [key]) value ++ leavesOf path rest

end

def putOf (leaf : List String × String) : HamtOp :=
  .put (Utf8.encode (dotted leaf.1)) (Utf8.encode leaf.2)

-- The paths to the scalars

theorem prefix_concat_injective {path other : List String} {key part : String}
    (first : path ++ [key] <+: path ++ part :: other) : key = part := by
  rw [List.prefix_append_right_inj] at first
  exact (List.cons_prefix_cons.mp first).1

theorem Named.concat {path : List String} (named : Named path) {key : String}
    (isKey : isWord key.toList) : Named (path ++ [key]) := by
  intro part member
  rcases List.mem_append.mp member with front | last
  · exact named part front
  · rwa [List.mem_singleton.mp last]

mutual

variable {leaf : List String × String}

theorem prefix_of_mem_leaves
    : (value : Value) → (path : List String) → leaf ∈ leaves path value → path <+: leaf.1
  | .map entries, path, member => by
    obtain ⟨key, -, below⟩ := prefix_of_mem_leavesOf entries path member
    exact (List.prefix_append path [key]).trans below
  | .null, _, member | .bool _, _, member | .int _, _, member | .float _, _, member
  | .string _, _, member => by
    obtain rfl := List.mem_singleton.mp member
    exact List.prefix_rfl

theorem prefix_of_mem_leavesOf
    : (entries : List (String × Value)) → (path : List String) → leaf ∈ leavesOf path entries
      → ∃ key ∈ AssocMap.keys entries, path ++ [key] <+: leaf.1
  | [], _, member => nomatch member
  | (key, value) :: rest, path, member => by
    rcases List.mem_append.mp member with first | later
    · exact ⟨key, List.mem_cons_self, prefix_of_mem_leaves value (path ++ [key]) first⟩
    · obtain ⟨other, inRest, below⟩ := prefix_of_mem_leavesOf rest path later
      exact ⟨other, List.mem_cons_of_mem _ inRest, below⟩

end

mutual

theorem named_of_mem_leaves
    : (value : Value) → value.KeysNamed → (path : List String) → Named path
      → leaf ∈ leaves path value → Named leaf.1
  | .map entries, keys, path, named, member => named_of_mem_leavesOf entries keys path named member
  | .null, _, _, named, member | .bool _, _, _, named, member | .int _, _, _, named, member
  | .float _, _, _, named, member | .string _, _, _, named, member => by
    obtain rfl := List.mem_singleton.mp member
    exact named

theorem named_of_mem_leavesOf
    : (entries : List (String × Value)) → EntriesNamed entries → (path : List String) → Named path
      → leaf ∈ leavesOf path entries → Named leaf.1
  | [], _, _, _, member => nomatch member
  | (key, value) :: rest, keys, path, named, member => by
    obtain ⟨isKey, -, valueKeys, restKeys⟩ := keys
    rcases List.mem_append.mp member with first | later
    · exact named_of_mem_leaves value valueKeys _ (named.concat isKey) first
    · exact named_of_mem_leavesOf rest restKeys path named later

end

mutual

/-- Each path leads to one scalar at most. -/
theorem nodup_leaves
    : (value : Value) → value.KeysNamed → (path : List String)
      → ((leaves path value).map Prod.fst).Nodup
  | .map entries, keys, path => nodup_leavesOf entries keys path
  | .null, _, _ | .bool _, _, _ | .int _, _, _ | .float _, _, _ | .string _, _, _ =>
    List.nodup_singleton _

theorem nodup_leavesOf
    : (entries : List (String × Value)) → EntriesNamed entries → (path : List String)
      → ((leavesOf path entries).map Prod.fst).Nodup
  | [], _, _ => List.nodup_nil
  | (key, value) :: rest, keys, path => by
    obtain ⟨-, new, valueKeys, restKeys⟩ := keys
    rw [leavesOf, List.map_append]
    refine (nodup_leaves value valueKeys _).append (nodup_leavesOf rest restKeys path) ?_
    intro place inFirst inRest
    obtain ⟨leaf, inLeaves, rfl⟩ := List.mem_map.mp inFirst
    obtain ⟨other, inOthers, same⟩ := List.mem_map.mp inRest
    obtain ⟨tail, below⟩ := prefix_of_mem_leaves value _ inLeaves
    obtain ⟨found, inKeys, alsoBelow⟩ := prefix_of_mem_leavesOf rest path inOthers
    rw [same, ← below, List.append_assoc, List.singleton_append] at alsoBelow
    exact new (prefix_concat_injective alsoBelow ▸ inKeys)

end

mutual

/-- A path leads to the scalar that a walk along it finds. -/
theorem mem_leaves_iff {text : String}
    : (value : Value) → value.KeysNamed → (path rest : List String)
      → ((path ++ rest, text) ∈ leaves path value
        ↔ (walkValue value rest).bind Value.storageText = some text)
  | .map entries, keys, path, rest => mem_leavesOf_iff entries keys path rest
  | .null, _, _, rest | .bool _, _, _, rest | .int _, _, _, rest | .float _, _, _, rest
  | .string _, _, _, rest => by
    cases rest with
    | nil => simp [leaves, walkValue, Value.storageText, eq_comm]
    | cons part rest => simp [leaves, walkValue, Value.storageText]

theorem mem_leavesOf_iff {text : String}
    : (entries : List (String × Value)) → EntriesNamed entries → (path rest : List String)
      → ((path ++ rest, text) ∈ leavesOf path entries
        ↔ (walkValue (.map entries) rest).bind Value.storageText = some text)
  | [], _, _, rest => by
    cases rest <;> simp [leavesOf, walkValue, Value.storageText, AssocMap.lookup]
  | (key, value) :: others, keys, path, [] => by
    have none : (path ++ [], text) ∉ leavesOf path ((key, value) :: others) := by
      intro member
      obtain ⟨found, -, below⟩ := prefix_of_mem_leavesOf _ path member
      have length := below.length_le
      simp at length
    exact iff_of_false none nofun
  | (key, value) :: others, keys, path, part :: rest => by
    obtain ⟨-, new, valueKeys, restKeys⟩ := keys
    have first := @mem_leaves_iff text value valueKeys (path ++ [key]) rest
    have later := @mem_leavesOf_iff text others restKeys path (part :: rest)
    rw [leavesOf, List.mem_append, later]
    simp only [walkValue, AssocMap.lookup]
    by_cases same : key = part
    · subst same
      have absent : AssocMap.lookup key others = none := by
        rw [← Option.not_isSome_iff_eq_none, AssocMap.lookup_isSome]
        exact new
      rw [List.append_assoc, List.singleton_append] at first
      simp [first, absent]
    · rw [if_neg same]
      refine or_iff_right fun member => same ?_
      exact prefix_concat_injective (prefix_of_mem_leaves value _ member)

end

namespace Engine

-- The writes of a payload

theorem nestedKey_dotted {path : List String} (named : Named path) (key : String)
    : nestedKey (dotted path) key = dotted (path ++ [key]) := by
  by_cases empty : path = []
  · subst empty
    rfl
  · rw [nestedKey, if_neg (dotted_ne_empty empty named), dotted_concat empty]
    rfl

mutual

/-- A payload is written as one entry for each of its scalars. -/
theorem payloadOps_eq
    : (value : Value) → value.KeysNamed → (path : List String) → Named path
      → payloadOps (dotted path) value = .ok ((leaves path value).map putOf)
  | .map entries, keys, path, named => by
    rw [payloadOps, leaves]
    exact payloadEntries_eq entries keys path named
  | .null, _, _, _ | .bool _, _, _, _ | .int _, _, _, _ | .float _, _, _, _
  | .string _, _, _, _ => rfl

theorem payloadEntries_eq
    : (entries : List (String × Value)) → EntriesNamed entries → (path : List String) → Named path
      → payloadEntries (dotted path) entries = .ok ((leavesOf path entries).map putOf)
  | [], _, _, _ => rfl
  | (key, value) :: rest, keys, path, named => by
    obtain ⟨isKey, -, valueKeys, restKeys⟩ := keys
    have first := payloadOps_eq value valueKeys (path ++ [key]) (named.concat isKey)
    have others := payloadEntries_eq rest restKeys path named
    rw [payloadEntries, nestedKey_dotted named, first, others, leavesOf, List.map_append]
    rfl

end

def written : HamtOp → Bytes × Bytes
  | .put key value => (key, value)

section Document

variable {entries : List (String × Value)} (keys : EntriesNamed entries)
include keys

end Document

end Engine

end Epochs.Ql
