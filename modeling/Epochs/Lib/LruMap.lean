import Epochs.Lib.AssocMap

/-! Bounded maps that evict their oldest key. Updating a key keeps its place in the order. -/

namespace Epochs.Lib

structure LruMap (κ α : Type) where
  map : AssocMap κ α
  order : List κ
  cap : Nat

namespace LruMap

variable {κ α : Type} [DecidableEq κ]

def new (cap : Nat) : LruMap κ α := ⟨[], [], max cap 1⟩

def get (lru : LruMap κ α) (key : κ) : Option α := AssocMap.lookup key lru.map

def evict (cap : Nat) : AssocMap κ α → List κ → AssocMap κ α × List κ
  | map, [] => (map, [])
  | map, old :: rest =>
    if cap ≤ map.length then evict cap (AssocMap.erase old map) rest else (map, old :: rest)

def insert (lru : LruMap κ α) (key : κ) (value : α) : LruMap κ α :=
  match AssocMap.lookup key lru.map with
  | some _ => { lru with map := AssocMap.insert key value lru.map }
  | none =>
    let (map, order) := evict lru.cap lru.map lru.order
    { lru with map := AssocMap.insert key value map, order := order ++ [key] }

def clear (lru : LruMap κ α) : LruMap κ α := { lru with map := [], order := [] }

@[simp]
theorem get_new (cap : Nat) (key : κ) : (new cap : LruMap κ α).get key = none := rfl

/-- Eviction only removes entries. -/
theorem lookup_evict {cap : Nat} {map : AssocMap κ α} {order : List κ} {key : κ} {value : α}
    (found : AssocMap.lookup key (evict cap map order).1 = some value)
    : AssocMap.lookup key map = some value := by
  induction order generalizing map with
  | nil => exact found
  | cons old rest ih =>
    simp only [evict] at found
    split at found
    · have kept := ih found
      rw [AssocMap.lookup_erase] at kept
      split at kept
      · simp at kept
      · exact kept
    · exact found

/-- After an insertion a key holds the value just inserted or what it held before. -/
theorem get_insert {lru : LruMap κ α} {key other : κ} {value found : α}
    (here : (lru.insert key value).get other = some found)
    : (other = key ∧ found = value) ∨ lru.get other = some found := by
  unfold insert get at here
  split at here
  · simp only [AssocMap.lookup_insert] at here
    split at here
    · rename_i same
      exact .inl ⟨same.symm, (Option.some.inj here).symm⟩
    · exact .inr here
  · simp only [AssocMap.lookup_insert] at here
    split at here
    · rename_i same
      exact .inl ⟨same.symm, (Option.some.inj here).symm⟩
    · exact .inr (lookup_evict here)

/-- The value just inserted is present. -/
theorem get_insert_self (lru : LruMap κ α) (key : κ) (value : α)
    : (lru.insert key value).get key = some value := by
  unfold insert get
  split <;> simp

/-- The queue lists the keys of the map, each once and in the order in which they came, and there are
no more of them than the bound allows.
-/
structure Coherent (lru : LruMap κ α) : Prop where
  order : lru.order = AssocMap.keys lru.map
  distinct : (AssocMap.keys lru.map).Nodup
  bounded : lru.map.length ≤ lru.cap
  positive : 0 < lru.cap

omit [DecidableEq κ] in
theorem coherent_new (cap : Nat) : (new cap : LruMap κ α).Coherent :=
  ⟨rfl, List.nodup_nil, Nat.zero_le _, Nat.le_max_right cap 1⟩

omit [DecidableEq κ] in
theorem Coherent.clear {lru : LruMap κ α} (coherent : lru.Coherent) : lru.clear.Coherent :=
  ⟨rfl, List.nodup_nil, Nat.zero_le _, coherent.positive⟩

/-- Eviction leaves the newest entries, with room for one more. -/
theorem evict_keys {cap : Nat} (positive : 0 < cap) {map : AssocMap κ α}
    (distinct : (AssocMap.keys map).Nodup)
    : ∃ rest, evict cap map (AssocMap.keys map) = (rest, AssocMap.keys rest)
      ∧ AssocMap.keys rest <:+ AssocMap.keys map ∧ rest.length < cap := by
  induction map with
  | nil => exact ⟨[], rfl, List.suffix_rfl, positive⟩
  | cons entry later ih =>
    obtain ⟨old, value⟩ := entry
    obtain ⟨absent, distinctLater⟩ := List.nodup_cons.mp distinct
    by_cases full : cap ≤ ((old, value) :: later).length
    · obtain ⟨rest, evicted, suffix, room⟩ := ih distinctLater
      refine ⟨rest, ?_, suffix.trans (List.suffix_cons old _), room⟩
      rw [← evicted, AssocMap.keys, List.map_cons, evict, if_pos full, AssocMap.erase, if_pos rfl,
        AssocMap.erase_of_not_mem absent]
      rfl
    · exact ⟨_, if_neg full, List.suffix_rfl, Nat.lt_of_not_le full⟩

theorem Coherent.insert {lru : LruMap κ α} (coherent : lru.Coherent) (key : κ) (value : α)
    : (lru.insert key value).Coherent := by
  obtain ⟨order, distinct, bounded, positive⟩ := coherent
  unfold LruMap.insert
  split
  · rename_i found
    have present : key ∈ AssocMap.keys lru.map := AssocMap.lookup_isSome.mp (by rw [found]; rfl)
    have same := AssocMap.keys_insert key value lru.map
    rw [if_pos present] at same
    refine ⟨order.trans same.symm, AssocMap.nodup_insert distinct key value, ?_, positive⟩
    rw [← List.length_map Prod.fst, ← AssocMap.keys, same, AssocMap.keys, List.length_map]
    exact bounded
  · rename_i missing
    obtain ⟨rest, evicted, suffix, room⟩ := evict_keys positive distinct
    have absent : key ∉ AssocMap.keys rest := fun member => by
      have present := AssocMap.lookup_isSome.mpr (suffix.subset member)
      rw [missing] at present
      cases present
    have longer := AssocMap.keys_insert key value rest
    rw [if_neg absent] at longer
    rw [order, evicted]
    refine ⟨longer.symm, AssocMap.nodup_insert (suffix.sublist.nodup distinct) key value, ?_, positive⟩
    rw [← List.length_map Prod.fst, ← AssocMap.keys, longer, List.length_append, AssocMap.keys,
      List.length_map]
    exact room

theorem Coherent.mem_order {lru : LruMap κ α} (coherent : lru.Coherent) {key : κ}
    : key ∈ lru.order ↔ (lru.get key).isSome := by
  rw [coherent.order, get, AssocMap.lookup_isSome]

/-- Writing a key that is present removes no other. -/
theorem isSome_insert_of_present {lru : LruMap κ α} {key other : κ} (value : α)
    (present : (lru.get key).isSome) (here : (lru.get other).isSome)
    : ((lru.insert key value).get other).isSome := by
  obtain ⟨old, found⟩ := Option.isSome_iff_exists.mp present
  unfold get at found here ⊢
  rw [LruMap.insert, found]
  dsimp only
  rw [AssocMap.lookup_insert]
  split
  · rfl
  · exact here

end LruMap
end Epochs.Lib
