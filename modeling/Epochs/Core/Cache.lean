import Epochs.Lib.LruMap
import Mathlib.Data.List.Induction

/-! Runs of the bounded map that the object cache and the commit cache are. Whatever was written to it
in whatever order, it answers with the latest value of a key or not at all.
-/

namespace Epochs.Cache

open Lib

variable {κ α : Type} [DecidableEq κ]

inductive Change (κ α : Type)
  | insert (key : κ) (value : α)
  | clear

def Change.apply (lru : LruMap κ α) : Change κ α → LruMap κ α
  | .insert key value => lru.insert key value
  | .clear => lru.clear

def after (cap : Nat) (changes : List (Change κ α)) : LruMap κ α :=
  changes.foldl Change.apply (LruMap.new cap)

/-- The value of the last insertion of a key since the cache was cleared. -/
def lastValue (key : κ) (changes : List (Change κ α)) : Option α :=
  changes.foldl
    (fun held change =>
      match change with
      | .insert other value => if other = key then some value else held
      | .clear => none)
    none

/-- The key inserted last among those that were not present, since the cache was cleared. -/
def newestKey (cap : Nat) (changes : List (Change κ α)) : Option κ :=
  (changes.foldl
    (fun (lru, newest) change =>
      (change.apply lru,
        match change with
        | .insert key _ => if (lru.get key).isSome then newest else some key
        | .clear => none))
    (LruMap.new cap, none)).2

theorem after_concat (cap : Nat) (changes : List (Change κ α)) (change : Change κ α)
    : after cap (changes ++ [change]) = change.apply (after cap changes) := by
  rw [after, List.foldl_append]
  rfl

theorem newestKey_concat (cap : Nat) (changes : List (Change κ α)) (change : Change κ α)
    : newestKey cap (changes ++ [change])
      = match change with
        | .insert key _ =>
          if ((after cap changes).get key).isSome then newestKey cap changes else some key
        | .clear => none := by
  have states (newest : Option κ) (lru : LruMap κ α)
      : (changes.foldl
          (fun (lru, newest) change =>
            (change.apply lru,
              match change with
              | .insert key _ => if (lru.get key).isSome then newest else some key
              | .clear => none))
          (lru, newest)).1
        = changes.foldl Change.apply lru := by
    induction changes generalizing newest lru with
    | nil => rfl
    | cons first rest ih => exact ih _ _
  rw [newestKey, List.foldl_append, List.foldl_cons, List.foldl_nil, after, ← states none]
  rfl

theorem coherent_after (cap : Nat) (changes : List (Change κ α)) : (after cap changes).Coherent := by
  induction changes using List.reverseRecOn with
  | nil => exact LruMap.coherent_new cap
  | append_singleton changes change ih =>
    rw [after_concat]
    cases change with
    | insert key value => exact ih.insert key value
    | clear => exact ih.clear

theorem cap_after (cap : Nat) (changes : List (Change κ α)) : (after cap changes).cap = max cap 1 := by
  induction changes using List.reverseRecOn with
  | nil => rfl
  | append_singleton changes change ih =>
    rw [after_concat]
    cases change with
    | insert key value =>
      rw [Change.apply, LruMap.insert]
      split <;> exact ih
    | clear => exact ih

theorem lastValue_of_get {cap : Nat} {changes : List (Change κ α)} {key : κ} {value : α}
    (found : (after cap changes).get key = some value)
    : lastValue key changes = some value := by
  induction changes using List.reverseRecOn with
  | nil => cases found
  | append_singleton changes change ih =>
    rw [after_concat] at found
    rw [lastValue, List.foldl_append, List.foldl_cons, List.foldl_nil]
    cases change with
    | clear => cases found
    | insert other new =>
      dsimp only
      by_cases same : other = key
      · subst same
        rw [if_pos rfl, ← found]
        exact (LruMap.get_insert_self _ _ _).symm
      · rw [if_neg same]
        rcases LruMap.get_insert found with ⟨this, -⟩ | old
        · exact absurd this.symm same
        · exact ih old

theorem isSome_newestKey {cap : Nat} {changes : List (Change κ α)} {key : κ}
    (newest : newestKey cap changes = some key)
    : ((after cap changes).get key).isSome := by
  induction changes using List.reverseRecOn with
  | nil => cases newest
  | append_singleton changes change ih =>
    rw [newestKey_concat] at newest
    rw [after_concat]
    cases change with
    | clear => cases newest
    | insert other value =>
      dsimp only at newest
      split at newest
      · rename_i present
        exact LruMap.isSome_insert_of_present value present (ih newest)
      · cases newest
        rw [Change.apply, LruMap.get_insert_self]
        rfl

/-- After any changes the queue lists the keys of the map, each once, and there are at most as many as
the capacity allows, which is one at least. A key that is found has the value it was inserted with
last, and the newest key is found.
-/
theorem cache_sound (cap : Nat) (changes : List (Change κ α))
    : (after cap changes).order.Perm (AssocMap.keys (after cap changes).map)
      ∧ (after cap changes).order.Nodup
      ∧ (after cap changes).map.length ≤ max cap 1
      ∧ (∀ key, key ∈ (after cap changes).order ↔ ((after cap changes).get key).isSome)
      ∧ (∀ key value, (after cap changes).get key = some value → lastValue key changes = some value)
      ∧ ∀ key, newestKey cap changes = some key → ((after cap changes).get key).isSome := by
  have coherent := coherent_after cap changes
  exact ⟨.of_eq coherent.order, coherent.order ▸ coherent.distinct, cap_after cap changes ▸ coherent.bounded,
    fun _ => coherent.mem_order, fun _ _ => lastValue_of_get, fun _ => isSome_newestKey⟩

end Epochs.Cache
