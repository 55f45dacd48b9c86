import Mathlib.Data.List.Nodup
import Mathlib.Logic.Function.Basic

/-! Hash tries over arbitrary chunk sequences. A key descends by one chunk of its hash at
each depth; a leaf is found only if it sits on the path its own chunks select. Insertion is
a relation, since splitting a leaf may place the two halves by the chunks of any level at
which they differ; only the level of the split's own depth keeps every key on its path.
-/

namespace Epochs.Lib

/-- A trie with leaves of key-value pairs and branching type `ι`. -/
inductive HashTrie (ι κ α : Type) where
  | empty
  | leaf (key : κ) (value : α)
  | node (slots : ι → HashTrie ι κ α)

namespace HashTrie

variable {ι κ α : Type}

/-- The trie holds this entry somewhere, on its path or off it. -/
def Mem (key : κ) (value : α) : HashTrie ι κ α → Prop
  | empty => False
  | leaf found here => found = key ∧ here = value
  | node slots => ∃ slot, (slots slot).Mem key value

/-- The trie can be descended with a budget of `bound` steps. -/
def HeightLe : HashTrie ι κ α → Nat → Prop
  | empty, _ => True
  | leaf _ _, bound => 0 < bound
  | node slots, bound => ∃ inner, bound = inner + 1 ∧ ∀ slot, (slots slot).HeightLe inner

variable {trie : HashTrie ι κ α}

theorem HeightLe.mono {low high : Nat} (bounded : trie.HeightLe low)
    (le : low ≤ high)
    : trie.HeightLe high := by
  induction trie generalizing low high with
  | empty => trivial
  | leaf key value => exact Nat.lt_of_lt_of_le bounded le
  | node slots ih =>
    obtain ⟨inner, rfl, inside⟩ := bounded
    exact ⟨high - 1, by omega, fun slot => ih slot (inside slot) (by omega)⟩

-- Lookup and placement

section Lookup

variable [DecidableEq κ] (chunk : κ → Nat → ι)

def get (key : κ) : Nat → HashTrie ι κ α → Option α
  | _, empty => none
  | _, leaf found value => if found = key then some value else none
  | depth, node slots => (slots (chunk key depth)).get key (depth + 1)

/-- Every entry sits on the path its own chunks select from this depth on. -/
def WellPlaced : Nat → HashTrie ι κ α → Prop
  | _, empty => True
  | _, leaf _ _ => True
  | depth, node slots =>
    ∀ slot,
      (slots slot).WellPlaced (depth + 1)
      ∧ ∀ key value, (slots slot).Mem key value → chunk key depth = slot

/-- In a well-placed trie descending along a key finds exactly the entries of that key.
Witness: an entry in a slot has that slot as its chunk, so the descent enters it.
-/
theorem get_eq_some {depth : Nat} (placed : trie.WellPlaced chunk depth)
    (key : κ) (value : α)
    : trie.get chunk key depth = some value ↔ trie.Mem key value := by
  induction trie generalizing depth with
  | empty => simp [get, Mem]
  | leaf found here =>
    by_cases same : found = key <;> simp [get, Mem, same]
  | node slots ih =>
    simp only [get, Mem]
    rw [ih _ (placed _).1]
    constructor
    · intro member
      exact ⟨_, member⟩
    · rintro ⟨slot, member⟩
      rw [(placed slot).2 key value member]
      exact member

end Lookup

-- Insertion

section Insertion

variable [DecidableEq ι] (chunk : κ → Nat → ι)

def pair (level : Nat) (key : κ) (value : α) (otherKey : κ) (other : α) : ι → HashTrie ι κ α :=
  fun slot =>
    if slot = chunk key level then leaf key value
    else if slot = chunk otherKey level then leaf otherKey other
    else empty

/-- The second trie results from inserting a key at a depth of the first. A leaf of another
key is split at the first level, from this depth on, at which the two keys differ.
-/
inductive Inserted (key : κ) (value : α)
    : Nat → HashTrie ι κ α → HashTrie ι κ α → Prop
  | empty (depth : Nat) : Inserted key value depth .empty (.leaf key value)
  | same (depth : Nat) (old : α) : Inserted key value depth (.leaf key old) (.leaf key value)
  | split (depth level : Nat) (found : κ) (old : α) (different : found ≠ key)
    (below : depth ≤ level)
    (agree : ∀ between, depth ≤ between → between < level → chunk found between = chunk key between)
    (differ : chunk found level ≠ chunk key level)
    : Inserted key value depth (.leaf found old)
        (.node (pair chunk level found old key value))
  | descend (depth : Nat) (slots : ι → HashTrie ι κ α) (next : HashTrie ι κ α)
    (inside : Inserted key value (depth + 1) (slots (chunk key depth)) next)
    : Inserted key value depth (.node slots)
        (.node (Function.update slots (chunk key depth) next))

/-- Inserting the key ends at a leaf of another key whose chunk agrees at that very depth, so
that the split is made for a deeper level than the one it is placed at.
-/
def SkipsLevel (key : κ) : Nat → HashTrie ι κ α → Prop
  | _, empty => False
  | depth, leaf found _ => found ≠ key ∧ chunk found depth = chunk key depth
  | depth, node slots => (slots (chunk key depth)).SkipsLevel key (depth + 1)

variable {chunk} {key : κ} {value : α} {depth : Nat} {before after : HashTrie ι κ α}

/-- Another trie in a slot, whose entries belong there. -/
theorem WellPlaced.update {slots : ι → HashTrie ι κ α} {slot : ι}
    (placed : (node slots).WellPlaced chunk depth) (inner : trie.WellPlaced chunk (depth + 1))
    (mine : ∀ key value, trie.Mem key value → chunk key depth = slot)
    : (node (Function.update slots slot trie)).WellPlaced chunk depth :=
  (Function.forall_update_iff slots fun slot trie => trie.WellPlaced chunk (depth + 1)
    ∧ ∀ key value, trie.Mem key value → chunk key depth = slot).mpr
    ⟨⟨inner, mine⟩, fun other _ => placed other⟩

/-- The inserted entry is in the trie. -/
theorem Inserted.mem_self (inserted : Inserted chunk key value depth before after)
    : after.Mem key value := by
  induction inserted with
  | empty | same => exact ⟨rfl, rfl⟩
  | split depth level found old different below agree differ =>
    refine ⟨chunk key level, ?_⟩
    simp [pair, Ne.symm differ, Mem]
  | descend depth slots next inside ih =>
    exact ⟨chunk key depth, by simpa using ih⟩

/-- Entries of other keys stay, wherever they are. -/
theorem Inserted.mem_other {other : κ} {old : α}
    (inserted : Inserted chunk key value depth before after) (different : other ≠ key)
    (member : before.Mem other old)
    : after.Mem other old := by
  induction inserted with
  | empty => exact False.elim member
  | same depth old => exact absurd member.1.symm different
  | split depth level found here apart below agree differ =>
    obtain ⟨rfl, rfl⟩ := member
    exact ⟨chunk found level, by simp [pair, Mem]⟩
  | descend depth slots next inside ih =>
    obtain ⟨slot, member⟩ := member
    by_cases selected : slot = chunk key depth
    · exact ⟨slot, by simpa [selected] using ih (selected ▸ member)⟩
    · exact ⟨slot, by simpa [Function.update_of_ne selected] using member⟩

/-- Nothing else enters the trie. -/
theorem Inserted.mem_of_mem {other : κ} {old : α}
    (inserted : Inserted chunk key value depth before after) (member : after.Mem other old)
    : (other = key ∧ old = value) ∨ before.Mem other old := by
  induction inserted with
  | empty | same => exact Or.inl ⟨member.1.symm, member.2.symm⟩
  | split depth level found here apart below agree differ =>
    obtain ⟨slot, member⟩ := member
    simp only [pair] at member
    split at member
    · exact Or.inr member
    · split at member
      · exact Or.inl ⟨member.1.symm, member.2.symm⟩
      · exact False.elim member
  | descend depth slots next inside ih =>
    rcases (Function.exists_update_iff slots fun _ => Mem other old).mp member with here | there
    · exact (ih here).imp_right fun earlier => ⟨_, earlier⟩
    · obtain ⟨slot, -, member⟩ := there
      exact Or.inr ⟨slot, member⟩

/-- A split adds at most one step to the height. -/
theorem Inserted.heightLe {bound : Nat} (inserted : Inserted chunk key value depth before after) (bounded : before.HeightLe bound)
    : after.HeightLe (bound + 1) := by
  induction inserted generalizing bound with
  | empty | same => exact Nat.succ_pos bound
  | split depth level found old different below agree differ =>
    have positive : 0 < bound := bounded
    refine ⟨bound, rfl, fun slot => ?_⟩
    simp only [pair]
    split
    · exact positive
    · split
      · exact positive
      · trivial
  | descend depth slots next inside ih =>
    obtain ⟨inner, rfl, heights⟩ := bounded
    refine ⟨inner + 1, rfl, (Function.forall_update_iff slots fun _ => (HeightLe · _)).mpr ?_⟩
    exact ⟨ih (heights _), fun slot _ => (heights slot).mono (Nat.le_succ _)⟩

/-- Without a skipped level, insertion keeps every entry on its path. -/
theorem Inserted.wellPlaced (inserted : Inserted chunk key value depth before after)
    (placed : before.WellPlaced chunk depth) (direct : ¬ before.SkipsLevel chunk key depth)
    : after.WellPlaced chunk depth := by
  induction inserted with
  | empty | same => trivial
  | split depth level found old different below agree differ =>
    have here : level = depth := by
      rcases Nat.eq_or_lt_of_le below with same | deeper
      · exact same.symm
      · exact absurd ⟨different, agree depth (Nat.le_refl _) deeper⟩ direct
    subst here
    intro slot
    simp only [pair]
    split
    · rename_i selected
      exact ⟨trivial, fun other _ member => member.1 ▸ selected.symm⟩
    · split
      · rename_i selected
        exact ⟨trivial, fun other _ member => member.1 ▸ selected.symm⟩
      · exact ⟨trivial, fun _ _ member => False.elim member⟩
  | descend depth slots next inside ih =>
    refine placed.update (ih (placed _).1 direct) fun other old member => ?_
    rcases inside.mem_of_mem member with ⟨rfl, -⟩ | earlier
    · rfl
    · exact (placed _).2 other old earlier

variable [DecidableEq κ]

/-- Without a skipped level, lookups after the insertion are those of the updated map. -/
theorem Inserted.get_eq (inserted : Inserted chunk key value depth before after)
    (placed : before.WellPlaced chunk depth) (direct : ¬ before.SkipsLevel chunk key depth)
    (other : κ)
    : after.get chunk other depth
      = if other = key then some value else before.get chunk other depth := by
  have after_ := inserted.wellPlaced placed direct
  by_cases same : other = key
  · subst same
    rw [if_pos rfl, get_eq_some chunk after_]
    exact inserted.mem_self
  · rw [if_neg same]
    apply Option.ext
    intro old
    rw [get_eq_some chunk after_, get_eq_some chunk placed]
    refine ⟨fun member => ?_, inserted.mem_other same⟩
    rcases inserted.mem_of_mem member with ⟨equal, -⟩ | earlier
    · exact absurd equal same
    · exact earlier

/-- A skipped level hides an entry: the inserted one, or the one it was split from. Both keys
have the same chunk at the split's depth, but the split keeps them in different slots.
-/
theorem Inserted.hides (inserted : Inserted chunk key value depth before after)
    (placed : before.WellPlaced chunk depth) (skips : before.SkipsLevel chunk key depth)
    : after.get chunk key depth = none
      ∨ ∃ other old,
          other ≠ key
          ∧ before.get chunk other depth = some old
          ∧ after.get chunk other depth = none := by
  induction inserted with
  | empty => exact False.elim skips
  | same => exact absurd rfl skips.1
  | split depth level found old different below agree differ =>
    have shared := skips.2
    by_cases mine : chunk key depth = chunk found level
    · left
      simp [get, pair, mine, different]
    · right
      refine ⟨found, old, different, by simp [get], ?_⟩
      simp only [get, pair, shared, if_neg mine]
      split <;> simp [get, Ne.symm different]
  | descend depth slots next inside ih =>
    rcases ih (placed _).1 skips with hidden | ⟨other, old, different, found, hidden⟩
    · left
      simpa [get] using hidden
    · right
      have member := (get_eq_some chunk (placed _).1 other old).mp found
      have path := (placed _).2 other old member
      exact ⟨other, old, different, by simpa [get, path] using found,
        by simpa [get, path] using hidden⟩

end Insertion

-- Removal

section Removal

variable [DecidableEq ι] (chunk : κ → Nat → ι)

/-- The second trie results from removing a key below a depth of the first. A node whose
last slot is emptied vanishes; one that keeps a slot stays.
-/
inductive Removed (key : κ) : Nat → HashTrie ι κ α → HashTrie ι κ α → Prop
  | empty (depth : Nat) : Removed key depth .empty .empty
  | hit (depth : Nat) (old : α) : Removed key depth (.leaf key old) .empty
  | miss (depth : Nat) (found : κ) (old : α) (different : found ≠ key)
    : Removed key depth (.leaf found old) (.leaf found old)
  | descend (depth : Nat) (slots : ι → HashTrie ι κ α) (next : HashTrie ι κ α)
    (inside : Removed key (depth + 1) (slots (chunk key depth)) next)
    : Removed key depth (.node slots)
        (.node (Function.update slots (chunk key depth) next))
  | vanish (depth : Nat) (slots : ι → HashTrie ι κ α)
    (inside : Removed key (depth + 1) (slots (chunk key depth)) .empty)
    (alone : ∀ slot, slot ≠ chunk key depth → slots slot = .empty)
    : Removed key depth (.node slots) .empty

variable {chunk} {key : κ} {depth : Nat} {before after : HashTrie ι κ α}

/-- Removal adds no entry. -/
theorem Removed.mem_of_mem {other : κ} {old : α}
    (removed : Removed chunk key depth before after) (member : after.Mem other old)
    : before.Mem other old := by
  induction removed with
  | empty | hit | vanish => exact False.elim member
  | miss => exact member
  | descend depth slots next inside ih =>
    rcases (Function.exists_update_iff slots fun _ => Mem other old).mp member with here | there
    · exact ⟨_, ih here⟩
    · obtain ⟨slot, -, member⟩ := there
      exact ⟨slot, member⟩

/-- Removal keeps every entry on its path. -/
theorem Removed.wellPlaced (removed : Removed chunk key depth before after)
    (placed : before.WellPlaced chunk depth)
    : after.WellPlaced chunk depth := by
  induction removed with
  | empty | hit | miss | vanish => trivial
  | descend depth slots next inside ih =>
    exact placed.update (ih (placed _).1) fun other old member =>
      (placed _).2 other old (inside.mem_of_mem member)

/-- Removal does not make the trie higher. -/
theorem Removed.heightLe {bound : Nat} (removed : Removed chunk key depth before after)
    (bounded : before.HeightLe bound)
    : after.HeightLe bound := by
  induction removed generalizing bound with
  | empty | hit | vanish => trivial
  | miss => exact bounded
  | descend depth slots next inside ih =>
    obtain ⟨inner, rfl, heights⟩ := bounded
    refine ⟨inner, rfl, (Function.forall_update_iff slots fun _ => (HeightLe · _)).mpr ?_⟩
    exact ⟨ih (heights _), fun slot _ => heights slot⟩

variable [DecidableEq κ]

/-- The removed key is not found any more: its descent follows the removal's. -/
theorem Removed.get_self (removed : Removed chunk key depth before after)
    : after.get chunk key depth = none := by
  induction removed with
  | empty | hit | vanish => rfl
  | miss depth found old different => simp [get, different]
  | descend depth slots next inside ih => simpa [get] using ih

/-- Any other key is found as before: its descent leaves the removal's path or follows it. -/
theorem Removed.get_other (removed : Removed chunk key depth before after)
    {other : κ} (different : other ≠ key)
    : after.get chunk other depth = before.get chunk other depth := by
  induction removed with
  | empty | miss => rfl
  | hit => simp [get, Ne.symm different]
  | descend depth slots next inside ih =>
    by_cases selected : chunk other depth = chunk key depth
    · simp only [get, selected, Function.update_self]
      exact ih
    · simp only [get, Function.update_of_ne selected]
  | vanish depth slots inside alone ih =>
    by_cases selected : chunk other depth = chunk key depth
    · simpa only [get, selected] using ih
    · simp only [get, alone _ selected]

/-- Lookups after the removal are those of the map without the key. -/
theorem Removed.get_eq (removed : Removed chunk key depth before after) (other : κ)
    : after.get chunk other depth
      = if other = key then none else before.get chunk other depth := by
  by_cases same : other = key
  · subst same
    rw [if_pos rfl]
    exact removed.get_self
  · rw [if_neg same]
    exact removed.get_other same

end Removal

-- Canonical tries

section Canonical

def Crowded (trie : HashTrie ι κ α) : Prop :=
  ∃ key value other old, key ≠ other ∧ trie.Mem key value ∧ trie.Mem other old

/-- Every node of the trie holds two different keys. -/
def Branching : HashTrie ι κ α → Prop
  | empty => True
  | leaf _ _ => True
  | node slots => (node slots).Crowded ∧ ∀ slot, (slots slot).Branching

theorem Branching.eq_empty (branching : trie.Branching)
    (none : ∀ key value, ¬ trie.Mem key value)
    : trie = empty := by
  cases trie with
  | empty => rfl
  | leaf key value => exact absurd ⟨rfl, rfl⟩ (none key value)
  | node slots =>
    obtain ⟨⟨key, value, -, -, -, member, -⟩, -⟩ := branching
    exact absurd member (none key value)

/-- A trie whose entries are those of a leaf is that leaf. -/
theorem Branching.eq_leaf (branching : trie.Branching) {key : κ}
    {value : α} (only : ∀ other old, trie.Mem other old ↔ key = other ∧ value = old)
    : trie = leaf key value := by
  have member := (only key value).mpr ⟨rfl, rfl⟩
  cases trie with
  | empty => exact False.elim member
  | leaf found here =>
    obtain ⟨rfl, rfl⟩ := member
    rfl
  | node slots =>
    obtain ⟨⟨first, _, second, _, different, inFirst, inSecond⟩, -⟩ := branching
    exact absurd (((only _ _).mp inFirst).1.symm.trans ((only _ _).mp inSecond).1) different

variable {chunk : κ → Nat → ι}

theorem WellPlaced.mem_slot {slots : ι → HashTrie ι κ α} {depth : Nat}
    (placed : (node slots).WellPlaced chunk depth) (slot : ι) (key : κ) (value : α)
    : (slots slot).Mem key value ↔ (node slots).Mem key value ∧ chunk key depth = slot := by
  constructor
  · intro member
    exact ⟨⟨slot, member⟩, (placed slot).2 key value member⟩
  · rintro ⟨⟨other, member⟩, rfl⟩
    rwa [(placed other).2 key value member]

/-- A well-placed trie in which every node holds two keys is determined by its entries. -/
theorem eq_of_mem {first second : HashTrie ι κ α} {depth : Nat}
    (firstPlaced : first.WellPlaced chunk depth) (secondPlaced : second.WellPlaced chunk depth)
    (firstBranching : first.Branching) (secondBranching : second.Branching)
    (same : ∀ key value, first.Mem key value ↔ second.Mem key value)
    : first = second := by
  induction first generalizing second depth with
  | empty => exact (secondBranching.eq_empty fun key value => (same key value).not.mp id).symm
  | leaf key value =>
    exact (secondBranching.eq_leaf fun other old => (same other old).symm).symm
  | node slots ih =>
    cases second with
    | empty => exact firstBranching.eq_empty fun key value => (same key value).not.mpr id
    | leaf key value => exact firstBranching.eq_leaf fun other old => same other old
    | node others =>
      congr 1
      funext slot
      refine ih slot (firstPlaced slot).1 (secondPlaced slot).1 (firstBranching.2 slot)
        (secondBranching.2 slot) fun key value => ?_
      rw [firstPlaced.mem_slot, secondPlaced.mem_slot, same]

variable [DecidableEq ι] {key : κ} {value : α} {depth : Nat} {before after : HashTrie ι κ α}

/-- Insertion keeps two different keys two different keys. -/
theorem Inserted.crowded (inserted : Inserted chunk key value depth before after)
    (crowded : before.Crowded)
    : after.Crowded := by
  obtain ⟨first, old, second, other, different, inFirst, inSecond⟩ := crowded
  by_cases mine : first = key
  · exact ⟨key, value, second, other, mine ▸ different, inserted.mem_self,
      inserted.mem_other (mine ▸ different.symm) inSecond⟩
  · by_cases yours : second = key
    · exact ⟨first, old, key, value, mine, inserted.mem_other mine inFirst, inserted.mem_self⟩
    · exact ⟨first, old, second, other, different, inserted.mem_other mine inFirst,
        inserted.mem_other yours inSecond⟩

theorem Inserted.branching (inserted : Inserted chunk key value depth before after)
    (branching : before.Branching)
    : after.Branching := by
  induction inserted with
  | empty | same => trivial
  | split depth level found old different below agree differ =>
    refine ⟨⟨found, old, key, value, different, ⟨chunk found level, by simp [pair, Mem]⟩,
      ⟨chunk key level, by simp [pair, Ne.symm differ, Mem]⟩⟩, fun slot => ?_⟩
    simp only [pair]
    split
    · trivial
    · split <;> trivial
  | descend depth slots next inside ih =>
    refine ⟨(Inserted.descend depth slots next inside).crowded branching.1,
      (Function.forall_update_iff slots fun _ => Branching).mpr ⟨ih (branching.2 _), ?_⟩⟩
    exact fun slot _ => branching.2 slot

/-- An entry off its path stays off it: if the trie is well placed after an insertion, it was
before, and no level was skipped.
-/
theorem Inserted.of_wellPlaced (inserted : Inserted chunk key value depth before after)
    (placed : after.WellPlaced chunk depth)
    : before.WellPlaced chunk depth ∧ ¬ before.SkipsLevel chunk key depth := by
  induction inserted with
  | empty => exact ⟨trivial, id⟩
  | same => exact ⟨trivial, fun skips => skips.1 rfl⟩
  | split depth level found old different below agree differ =>
    refine ⟨trivial, fun skips => differ ?_⟩
    have first := (placed (chunk found level)).2 found old (by simp [pair, Mem])
    have second := (placed (chunk key level)).2 key value (by simp [pair, Ne.symm differ, Mem])
    rw [← first, ← second]
    exact skips.2
  | descend depth slots next inside ih =>
    have here := placed (chunk key depth)
    rw [Function.update_self] at here
    obtain ⟨earlier, direct⟩ := ih here.1
    refine ⟨fun slot => ?_, direct⟩
    by_cases selected : slot = chunk key depth
    · subst selected
      refine ⟨earlier, fun other old member => ?_⟩
      by_cases mine : other = key
      · rw [mine]
      · exact here.2 other old (inside.mem_other mine member)
    · have there := placed slot
      rwa [Function.update_of_ne selected] at there

end Canonical

-- Listing

def entries (order : List ι) : HashTrie ι κ α → List (κ × α)
  | empty => []
  | leaf key value => [(key, value)]
  | node slots => order.flatMap fun slot => (slots slot).entries order

/-- A listing that visits every slot lists exactly the entries of the trie. -/
theorem mem_entries {order : List ι} (complete : ∀ slot, slot ∈ order)
    (trie : HashTrie ι κ α) (key : κ) (value : α)
    : (key, value) ∈ trie.entries order ↔ trie.Mem key value := by
  induction trie with
  | empty => simp [entries, Mem]
  | leaf found here =>
    simp only [entries, Mem, List.mem_singleton, Prod.mk.injEq]
    exact and_congr eq_comm eq_comm
  | node slots ih =>
    simp only [entries, Mem, List.mem_flatMap]
    constructor
    · rintro ⟨slot, -, member⟩
      exact ⟨slot, (ih slot).mp member⟩
    · rintro ⟨slot, member⟩
      exact ⟨slot, complete slot, (ih slot).mpr member⟩

/-- A listing of a well-placed trie repeats no key: a key has one chunk at each depth, so its
entries are all in one slot.
-/
theorem entries_keys_nodup {chunk : κ → Nat → ι} {order : List ι} (unique : order.Nodup)
    (complete : ∀ slot, slot ∈ order) {depth : Nat}
    (placed : trie.WellPlaced chunk depth)
    : ((trie.entries order).map Prod.fst).Nodup := by
  induction trie generalizing depth with
  | empty => simp [entries]
  | leaf => simp [entries]
  | node slots ih =>
    simp only [entries, List.map_flatMap, List.nodup_flatMap]
    refine ⟨fun slot _ => ih slot (placed slot).1, unique.imp ?_⟩
    intro first second different key inFirst inSecond
    obtain ⟨⟨_, left⟩, memberLeft, rfl⟩ := List.mem_map.mp inFirst
    obtain ⟨⟨_, right⟩, memberRight, same⟩ := List.mem_map.mp inSecond
    simp only at same
    subst same
    have atFirst := (placed first).2 _ left ((mem_entries complete _ _ _).mp memberLeft)
    have atSecond := (placed second).2 _ right ((mem_entries complete _ _ _).mp memberRight)
    exact different (atFirst.symm.trans atSecond)

end HashTrie
end Epochs.Lib
