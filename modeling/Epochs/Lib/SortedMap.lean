import Epochs.Lib.AssocMap
import Mathlib.Data.List.Induction
import Mathlib.Data.String.Basic

/-! Finite maps that list their keys in increasing order. -/

namespace Epochs.Lib

structure SortedMap (κ α : Type) [LT κ] where
  entries : List (κ × α)
  sorted : entries.Pairwise fun first second => first.1 < second.1
  deriving DecidableEq

namespace SortedMap

variable {κ α : Type} [LinearOrder κ]

def insertEntry (key : κ) (value : α) : List (κ × α) → List (κ × α)
  | [] => [(key, value)]
  | (found, old) :: rest =>
    if key < found then (key, value) :: (found, old) :: rest
    else if key = found then (key, value) :: rest
    else (found, old) :: insertEntry key value rest

variable {key : κ} {entries : List (κ × α)}

theorem mem_insertEntry {value : α} {entry : κ × α}
    (member : entry ∈ insertEntry key value entries)
    : entry = (key, value) ∨ entry ∈ entries := by
  induction entries with
  | nil => simpa [insertEntry] using member
  | cons head rest ih =>
    obtain ⟨found, old⟩ := head
    rw [insertEntry] at member
    split at member
    · simpa using member
    · split at member
      · rcases List.mem_cons.mp member with same | later
        · exact .inl same
        · exact .inr (List.mem_cons_of_mem _ later)
      · rcases List.mem_cons.mp member with same | later
        · exact .inr (same ▸ List.mem_cons_self)
        · exact (ih later).imp_right (List.mem_cons_of_mem _)

/-- Writing a key keeps the entries ordered. -/
theorem sorted_insertEntry
    (sorted : entries.Pairwise fun first second => first.1 < second.1) (key : κ) (value : α)
    : (insertEntry key value entries).Pairwise fun first second => first.1 < second.1 := by
  induction entries with
  | nil => simp [insertEntry]
  | cons head rest ih =>
    obtain ⟨found, old⟩ := head
    obtain ⟨above, sortedRest⟩ := List.pairwise_cons.mp sorted
    rw [insertEntry]
    split
    · rename_i before
      refine List.pairwise_cons.mpr ⟨fun entry member => ?_, sorted⟩
      rcases List.mem_cons.mp member with rfl | later
      · exact before
      · exact before.trans (above entry later)
    · split
      · rename_i same
        exact List.pairwise_cons.mpr ⟨fun entry later => same ▸ above entry later, sortedRest⟩
      · rename_i notBefore different
        refine List.pairwise_cons.mpr ⟨fun entry member => ?_, ih sortedRest⟩
        rcases mem_insertEntry member with rfl | later
        · exact lt_of_le_of_ne (not_lt.mp notBefore) (Ne.symm different)
        · exact above entry later

def empty : SortedMap κ α := ⟨[], List.Pairwise.nil⟩

def insert (map : SortedMap κ α) (key : κ) (value : α) : SortedMap κ α :=
  ⟨insertEntry key value map.entries, sorted_insertEntry map.sorted key value⟩

def get (map : SortedMap κ α) (key : κ) : Option α := AssocMap.lookup key map.entries

def retain (map : SortedMap κ α) (keep : κ → Bool) : SortedMap κ α :=
  ⟨map.entries.filter fun entry => keep entry.1, map.sorted.sublist List.filter_sublist⟩

def remove (map : SortedMap κ α) (key : κ) : SortedMap κ α := map.retain fun found => found ≠ key

def size (map : SortedMap κ α) : Nat := map.entries.length

def values (map : SortedMap κ α) : List α := map.entries.map Prod.snd

def insertAll (map : SortedMap κ α) (entries : List (κ × α)) : SortedMap κ α :=
  entries.foldl (fun map entry => map.insert entry.1 entry.2) map

@[ext]
theorem ext {first second : SortedMap κ α} (same : first.entries = second.entries)
    : first = second := by
  cases first
  cases second
  cases same
  rfl

theorem lookup_insertEntry (key other : κ) (value : α) (entries : List (κ × α))
    : AssocMap.lookup other (insertEntry key value entries)
      = if key = other then some value else AssocMap.lookup other entries := by
  induction entries with
  | nil => simp [insertEntry, AssocMap.lookup]
  | cons head rest ih =>
    obtain ⟨found, old⟩ := head
    rw [insertEntry]
    split
    · simp [AssocMap.lookup]
    · split
      · rename_i same
        subst same
        simp only [AssocMap.lookup]
        split <;> rfl
      · rename_i different
        simp only [AssocMap.lookup, ih]
        by_cases here : found = other
        · have other_ : key ≠ other := here ▸ different
          simp [here, other_]
        · simp [here]

@[simp]
theorem get_insert_self (map : SortedMap κ α) (key : κ) (value : α)
    : (map.insert key value).get key = some value := by
  rw [get, insert, lookup_insertEntry, if_pos rfl]

theorem insertEntry_insertEntry (key : κ) (first second : α) (entries : List (κ × α))
    : insertEntry key second (insertEntry key first entries)
      = insertEntry key second entries := by
  induction entries with
  | nil => simp [insertEntry]
  | cons head rest ih =>
    obtain ⟨found, old⟩ := head
    simp only [insertEntry]
    split
    · simp [insertEntry]
    · split
      · simp [insertEntry]
      · rename_i notBefore different
        simp [insertEntry, notBefore, different, ih]

/-- The last write of a key counts. -/
theorem insert_insert (map : SortedMap κ α) (key : κ) (first second : α)
    : (map.insert key first).insert key second = map.insert key second :=
  ext (insertEntry_insertEntry key first second map.entries)

variable {map : SortedMap κ α}

theorem mem_of_get {value : α} (found : map.get key = some value)
    : (key, value) ∈ map.entries :=
  AssocMap.mem_of_lookup found

/-- A key above all others is written at the end. -/
theorem insertEntry_of_last (value : α)
    (last : ∀ entry ∈ entries, entry.1 < key)
    : insertEntry key value entries = entries ++ [(key, value)] := by
  induction entries with
  | nil => rfl
  | cons head rest ih =>
    obtain ⟨found, old⟩ := head
    have below : found < key := last (found, old) List.mem_cons_self
    rw [insertEntry, if_neg below.not_gt, if_neg below.ne', List.cons_append,
      ih fun entry member => last entry (List.mem_cons_of_mem _ member)]

/-- Entries written in order stand after those already there. -/
theorem entries_insertAll
    (sorted : (map.entries ++ entries).Pairwise fun first second => first.1 < second.1)
    : (map.insertAll entries).entries = map.entries ++ entries := by
  induction entries generalizing map with
  | nil => simp [insertAll]
  | cons entry rest ih =>
    have last : ∀ other ∈ map.entries, other.1 < entry.1 := fun other member =>
      (List.pairwise_append.mp sorted).2.2 other member entry List.mem_cons_self
    have written : (map.insert entry.1 entry.2).entries = map.entries ++ [entry] :=
      insertEntry_of_last entry.2 last
    have whole : map.entries ++ entry :: rest = (map.insert entry.1 entry.2).entries ++ rest := by
      rw [written, List.append_assoc, List.singleton_append]
    rw [whole] at sorted ⊢
    exact ih sorted

/-- A map is rebuilt from its entries. -/
theorem insertAll_entries (map : SortedMap κ α) : empty.insertAll map.entries = map := by
  refine ext ?_
  rw [entries_insertAll]
  · rfl
  · exact map.sorted

/-- Writing entries adds at most as many. -/
theorem size_insertAll_le (map : SortedMap κ α) (entries : List (κ × α))
    : (map.insertAll entries).size ≤ map.size + entries.length := by
  have one (entries : List (κ × α)) (key : κ) (value : α)
      : (insertEntry key value entries).length ≤ entries.length + 1 := by
    induction entries with
    | nil => simp [insertEntry]
    | cons head rest ih =>
      rw [insertEntry]
      split
      · simp
      · split <;> simp
        omega
  induction entries generalizing map with
  | nil => simp [insertAll]
  | cons entry rest ih =>
    have later := ih (map.insert entry.1 entry.2)
    have first := one map.entries entry.1 entry.2
    simp only [size, insertAll, List.foldl_cons, List.length_cons, insert] at later first ⊢
    omega

/-- Every entry of a map written to was there before or was written. -/
theorem mem_insertAll {entry : κ × α}
    (member : entry ∈ (map.insertAll entries).entries)
    : entry ∈ map.entries ∨ entry ∈ entries := by
  induction entries generalizing map with
  | nil => exact .inl member
  | cons head rest ih =>
    rcases ih member with before | later
    · rcases mem_insertEntry before with rfl | old
      · exact .inr List.mem_cons_self
      · exact .inl old
    · exact .inr (List.mem_cons_of_mem _ later)

end SortedMap
end Epochs.Lib
