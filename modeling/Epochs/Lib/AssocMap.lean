import Mathlib.Data.List.Nodup

/-! Finite maps as association lists in insertion order. A key that is written again keeps
its place, and a lookup finds the first entry of its key.
-/

namespace Epochs.Lib

abbrev AssocMap (κ α : Type) := List (κ × α)

namespace AssocMap

variable {κ α : Type} [DecidableEq κ]

def lookup (key : κ) : AssocMap κ α → Option α
  | [] => none
  | (found, value) :: rest => if found = key then some value else lookup key rest

def contains (map : AssocMap κ α) (key : κ) : Bool := (lookup key map).isSome

/-- Write a key: in place when it is present, at the end otherwise. -/
def insert (key : κ) (value : α) : AssocMap κ α → AssocMap κ α
  | [] => [(key, value)]
  | (found, old) :: rest =>
    if found = key then (key, value) :: rest else (found, old) :: insert key value rest

def erase (key : κ) : AssocMap κ α → AssocMap κ α
  | [] => []
  | (found, value) :: rest =>
    if found = key then erase key rest else (found, value) :: erase key rest

def keys (map : AssocMap κ α) : List κ := map.map Prod.fst

@[simp]
theorem lookup_nil (key : κ) : lookup key ([] : AssocMap κ α) = none := rfl

theorem lookup_insert (key other : κ) (value : α) (map : AssocMap κ α)
    : lookup other (insert key value map)
      = if key = other then some value else lookup other map := by
  induction map with
  | nil => simp [insert, lookup]
  | cons entry rest ih =>
    obtain ⟨found, old⟩ := entry
    by_cases same : found = key
    · subst same
      by_cases this : found = other <;> simp [insert, lookup, this]
    · by_cases this : found = other
      · subst this
        simp [insert, lookup, same, Ne.symm same]
      · simp [insert, lookup, same, this, ih]

@[simp]
theorem lookup_insert_self (key : κ) (value : α) (map : AssocMap κ α)
    : lookup key (insert key value map) = some value := by
  rw [lookup_insert, if_pos rfl]

variable {key : κ}

theorem lookup_insert_of_ne {other : κ} (different : key ≠ other) (value : α)
    (map : AssocMap κ α)
    : lookup other (insert key value map) = lookup other map := by
  rw [lookup_insert, if_neg different]

theorem lookup_erase (key other : κ) (map : AssocMap κ α)
    : lookup other (erase key map) = if key = other then none else lookup other map := by
  induction map with
  | nil => simp [erase, lookup]
  | cons entry rest ih =>
    obtain ⟨found, value⟩ := entry
    by_cases same : found = key
    · subst same
      by_cases this : found = other
      · simpa [erase, lookup, this] using ih
      · simp [erase, lookup, this, ih]
    · by_cases this : found = other
      · subst this
        simp [erase, lookup, same, Ne.symm same]
      · simp [erase, lookup, same, this, ih]

variable {map : AssocMap κ α}

/-- A value found under a key stands in the list of entries. -/
theorem mem_of_lookup {value : α}
    (found : lookup key map = some value)
    : (key, value) ∈ map := by
  induction map with
  | nil => simp at found
  | cons entry rest ih =>
    obtain ⟨other, old⟩ := entry
    by_cases same : other = key
    · simp only [lookup, if_pos same, Option.some.injEq] at found
      simp [same, found]
    · simp only [lookup, if_neg same] at found
      exact List.mem_cons_of_mem _ (ih found)

/-- A key is present exactly when it is listed. -/
theorem lookup_isSome
    : (lookup key map).isSome ↔ key ∈ keys map := by
  induction map with
  | nil => simp [keys]
  | cons entry rest ih =>
    obtain ⟨found, value⟩ := entry
    by_cases same : found = key
    · simp [lookup, keys, same]
    · have tail : key ∈ keys ((found, value) :: rest) ↔ key ∈ keys rest := by
        simp [keys, Ne.symm same]
      simpa [lookup, same, tail] using ih

theorem keys_insert (key : κ) (value : α) (map : AssocMap κ α)
    : keys (insert key value map) = if key ∈ keys map then keys map else keys map ++ [key] := by
  induction map with
  | nil => simp [insert, keys]
  | cons entry rest ih =>
    obtain ⟨found, old⟩ := entry
    by_cases same : found = key
    · simp [insert, keys, same]
    · have tail : key ∈ keys ((found, old) :: rest) ↔ key ∈ keys rest := by
        simp [keys, Ne.symm same]
      rw [insert, if_neg same]
      simp only [tail]
      by_cases present : key ∈ keys rest
      · rw [if_pos present] at ih ⊢
        simpa [keys] using ih
      · rw [if_neg present] at ih ⊢
        simpa [keys] using ih

theorem erase_of_not_mem (absent : key ∉ keys map) : erase key map = map := by
  induction map with
  | nil => rfl
  | cons entry rest ih =>
    obtain ⟨found, old⟩ := entry
    obtain ⟨different, later⟩ := List.ne_and_not_mem_of_not_mem_cons absent
    rw [erase, if_neg (Ne.symm different), ih later]

theorem keys_erase_subset (key : κ) (map : AssocMap κ α)
    : (keys (erase key map)).Sublist (keys map) := by
  induction map with
  | nil => exact List.Sublist.refl _
  | cons entry rest ih =>
    obtain ⟨found, old⟩ := entry
    by_cases same : found = key
    · rw [erase, if_pos same]
      exact ih.cons found
    · rw [erase, if_neg same]
      exact ih.cons_cons found

/-- Writing keeps the keys distinct. -/
theorem nodup_insert (distinct : (keys map).Nodup) (key : κ) (value : α)
    : (keys (insert key value map)).Nodup := by
  rw [keys_insert]
  split
  · exact distinct
  · rename_i absent
    exact List.Nodup.append distinct (List.nodup_singleton key)
      (List.disjoint_singleton.mpr absent)

/-- Removing keeps the keys distinct. -/
theorem nodup_erase (distinct : (keys map).Nodup) (key : κ)
    : (keys (erase key map)).Nodup :=
  distinct.sublist (keys_erase_subset key map)

/-- In a map of distinct keys every listed entry is the one its key finds. -/
theorem lookup_of_mem {value : α} (distinct : (keys map).Nodup)
    (member : (key, value) ∈ map)
    : lookup key map = some value := by
  induction map with
  | nil => simp at member
  | cons entry rest ih =>
    obtain ⟨found, old⟩ := entry
    obtain ⟨fresh, distinct⟩ := List.nodup_cons.mp distinct
    rcases List.mem_cons.mp member with here | later
    · cases here
      simp [lookup]
    · have different : found ≠ key := by
        rintro rfl
        exact fresh (List.mem_map.mpr ⟨_, later, rfl⟩)
      simp [lookup, different, ih distinct later]

-- Other keys

/-- Two maps have the same values at paired keys. -/
def Corresponds (paired : κ → κ → Prop) (map other : AssocMap κ α) : Prop :=
  ∀ key key', paired key key' → lookup key' other = lookup key map

/-- A pairing that pairs no key with two. -/
def OneToOne (paired : κ → κ → Prop) : Prop :=
  ∀ first first' second second', paired first first' → paired second second'
    → (first = second ↔ first' = second')

theorem Corresponds.insert {paired : κ → κ → Prop} (oneToOne : OneToOne paired)
    {map other : AssocMap κ α} (corresponds : Corresponds paired map other) {key key' : κ}
    (here : paired key key') (value : α)
    : Corresponds paired (insert key value map) (insert key' value other) := by
  intro first first' pair
  rw [lookup_insert, lookup_insert, corresponds first first' pair,
    if_congr (oneToOne key key' first first' here pair).symm rfl rfl]

end AssocMap
end Epochs.Lib
