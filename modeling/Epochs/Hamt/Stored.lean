import Epochs.Hamt.Bitmap
import Epochs.Hamt.Frames
import Epochs.Lib.HashTrie

/-! The stored tree as a hash trie. A root stands for a trie when the records under it are
the nodes of that trie; looking up and listing in the code then look up and list in the trie.
-/

namespace Epochs.PersistentHamt

open Lib Run Traced LawfulCas

abbrev Trie := HashTrie (Fin 32) Bytes Bytes

def chunk [Blake3] (key : Bytes) (depth : Nat) : Fin 32 := extract5Bits (Hash.ofBytes key) depth

theorem extract5Bits_eq [Blake3] (key : Bytes) (depth : Nat)
    : extract5Bits (Hash.ofBytes key) depth = chunk key depth := by
  rw [chunk]

/-- The records under a hash are the nodes of a trie. -/
inductive Stored (view : View) : Hash → Trie → Prop
  | leaf (hash : Hash) (key value : Bytes) (fits : (HamtNode.leaf key value).Fits)
    (held : view hash = some (.hamtLeaf, (HamtNode.leaf key value).encode))
    : Stored view hash (.leaf key value)
  | node (hash : Hash) (bitmap : BitVec 32) (children : List Hash) (slots : Fin 32 → Trie)
    (held : view hash = some (.hamtBitmap, (HamtNode.bitmap bitmap children).encode))
    (counted : Counted bitmap children) (nonempty : children ≠ [])
    (absent : ∀ branch, childAt bitmap children branch = none → slots branch = .empty)
    (present : ∀ branch child, childAt bitmap children branch = some child
      → Stored view child (slots branch))
    : Stored view hash (.node slots)

structure Node (view : View) (bitmap : BitVec 32) (children : List Hash)
    (slots : Fin 32 → Trie) : Prop where
  counted : Counted bitmap children
  nonempty : children ≠ []
  absent : ∀ branch, childAt bitmap children branch = none → slots branch = .empty
  present : ∀ branch child, childAt bitmap children branch = some child
    → Stored view child (slots branch)

def Rooted (view : View) : Option Hash → Trie → Prop
  | none, trie => trie = .empty
  | some hash, trie => Stored view hash trie

variable {after : View} {hash : Hash} {trie : Trie}

/-- A stored tree stays one in a store that holds more. -/
theorem Stored.mono {before : View}
    (stored : Stored before hash trie) (more : before.Extends after)
    : Stored after hash trie := by
  induction stored with
  | leaf hash key value fits held => exact .leaf hash key value fits (more _ _ held)
  | node hash bitmap children slots held counted nonempty absent present ih =>
    exact .node hash bitmap children slots (more _ _ held) counted nonempty absent ih

variable {root : Option Hash}

namespace Node

variable {view : View} {bitmap : BitVec 32} {children : List Hash} {slots : Fin 32 → Trie}
  {branch : Fin 32}

theorem mono (node : Node view bitmap children slots) (more : view.Extends after)
    : Node after bitmap children slots :=
  { node with present := fun branch child found => (node.present branch child found).mono more }

/-- A node that differs from another in one branch at most. -/
theorem update (node : Node view bitmap children slots) {bits : BitVec 32} {kids : List Hash}
    (counted : Counted bits kids) (nonempty : kids ≠ []) {child : Option Hash}
    (rooted : Rooted view child trie)
    (same : ∀ other, childAt bits kids other
      = if other = branch then child else childAt bitmap children other)
    : Node view bits kids (Function.update slots branch trie) where
  counted := counted
  nonempty := nonempty
  absent other free := by
    rw [same] at free
    split at free
    · rename_i here
      subst here free
      rw [Function.update_self]
      exact rooted
    · rename_i different
      rw [Function.update_of_ne different]
      exact node.absent other free
  present other found at_ := by
    rw [same] at at_
    split at at_
    · rename_i here
      subst here at_
      rw [Function.update_self]
      exact rooted
    · rename_i different
      rw [Function.update_of_ne different]
      exact node.present other found at_

/-- Replacing the child of a branch replaces the trie in its slot. -/
theorem set (node : Node view bitmap children slots) (here : bitmap.getLsbD branch = true)
    {child : Hash} (stored : Stored view child trie)
    : Node view bitmap (children.set (childIndex bitmap branch) child)
        (Function.update slots branch trie) :=
  node.update (node.counted.set _ child) (by simpa using node.nonempty)
    (show Rooted view (some child) trie from stored) (childAt_set node.counted here child)

/-- Adding a child in a free branch fills its slot. -/
theorem insert (node : Node view bitmap children slots) (free : bitmap.getLsbD branch = false)
    {child : Hash} {trie : Trie} (stored : Stored view child trie)
    : Node view (bitmap ||| bitMask branch)
        (children.insertIdx (childIndex bitmap branch) child)
        (Function.update slots branch trie) := by
  refine node.update (node.counted.insert free child) (List.ne_nil_of_length_pos ?_)
    (show Rooted view (some child) trie from stored) (childAt_insert node.counted free child)
  rw [List.length_insertIdx_of_le_length node.counted.childIndex_le]
  omega

/-- Removing the child of a branch empties its slot. -/
theorem remove (node : Node view bitmap children slots) (here : bitmap.getLsbD branch = true)
    (nonempty : children.eraseIdx (childIndex bitmap branch) ≠ [])
    : Node view (bitmap &&& ~~~ bitMask branch)
        (children.eraseIdx (childIndex bitmap branch))
        (Function.update slots branch .empty) :=
  node.update (node.counted.remove here) nonempty (show Rooted view none .empty from rfl)
    (childAt_remove here)

/-- A node whose only child is removed has no entry outside the branch of that child. -/
theorem alone (node : Node view bitmap children slots) (here : bitmap.getLsbD branch = true)
    (last : children.eraseIdx (childIndex bitmap branch) = []) (other : Fin 32)
    (different : other ≠ branch)
    : slots other = .empty := by
  have unchanged := @childAt_remove bitmap children branch here other
  rw [if_neg different, last] at unchanged
  refine node.absent other (unchanged.symm.trans ?_)
  simp [childAt, SparseArray.get]

end Node

variable {σ : Type} [Blake3] [CasBackend σ] [LawfulCas σ] {traced : Traced σ}

/-- A node held under its own type loads as that node. -/
theorem loadNode_of_held (node : HamtNode) (valid : Valid traced.store)
    (fits : node.Fits) (held : traced.view hash = some (node.recordType, node.encode))
    : ∃ next, Observes traced next ∧ loadNode hash traced = .ok node next := by
  obtain ⟨next, observes, read⟩ := getRecord_spec valid hash
  simp only [held] at read
  refine ⟨next, observes, ?_⟩
  rw [loadNode, bind_of_ok read]
  simp [HamtNode.decode_encode fits]

/-- A stored leaf loads as that leaf. -/
theorem Stored.loadNode_eq {key value : Bytes}
    (stored : Stored traced.view hash (.leaf key value)) (valid : Valid traced.store)
    : ∃ next, Observes traced next ∧ loadNode hash traced = .ok (.leaf key value) next := by
  cases stored with
  | leaf _ _ _ fits held => exact loadNode_of_held _ valid fits held

-- Lookup and listing

/-- A search along the chunks of a key, given a budget for the height of the trie, ends at the leaf of
the key or at none, as in the trie.
-/
theorem Stored.search_meets {β : Type} (search : Nat → Hash → Nat → Run EpochsError (Traced σ) β)
    (answers : β → Option Bytes → Prop) {key : Bytes} {hit : Hash → Bytes → β} {miss : β}
    (spent : ∀ hash depth, search 0 hash depth = throw .fuel)
    (unfolds : ∀ fuel hash depth, search (fuel + 1) hash depth = loadNode hash >>= fun node =>
      match node with
      | .leaf found value => if found = key then pure (hit hash value) else pure miss
      | .bitmap bitmap children =>
        let branch := extract5Bits (Hash.ofBytes key) depth
        if bitmap &&& bitMask branch = 0 then
          pure miss
        else
          index children (childIndex bitmap branch) >>= fun child =>
            search fuel child (depth + 1))
    (stored : Stored traced.view hash trie) (valid : Valid traced.store)
    (hits : ∀ leaf value, Stored traced.view leaf (.leaf key value)
      → answers (hit leaf value) (some value))
    (misses : answers miss none) (fuel depth : Nat)
    : Meets
        (fun found next => Observes traced next
          ∧ answers found (trie.get chunk key depth))
        (fun fault _ => fault = .fuel ∧ ¬ trie.HeightLe fuel) (search fuel hash depth traced) := by
  generalize seen : traced.view = view at stored hits
  induction stored generalizing traced fuel depth with
  | leaf hash found value fits held =>
    cases fuel with
    | zero => simp [spent, HashTrie.HeightLe]
    | succ fuel =>
      obtain ⟨next, observes, loaded⟩ := loadNode_of_held (.leaf found value) valid fits
        (seen ▸ held)
      rw [unfolds, bind_of_ok loaded]
      by_cases same : found = key
      · subst same
        simp only [if_true, HashTrie.get]
        exact ⟨observes, hits hash value (.leaf hash found value fits held)⟩
      · simp only [if_neg same, HashTrie.get]
        exact ⟨observes, misses⟩
  | node hash bitmap children slots held counted nonempty absent present ih =>
    cases fuel with
    | zero => simp [spent, HashTrie.HeightLe]
    | succ fuel =>
      obtain ⟨next, observes, loaded⟩ := loadNode_of_held (.bitmap bitmap children) valid
        counted.fits (seen ▸ held)
      rw [unfolds, bind_of_ok loaded]
      simp only [and_bitMask_eq_zero, extract5Bits_eq, HashTrie.get]
      by_cases here : bitmap.getLsbD (chunk key depth) = true
      · obtain ⟨child, indexed, found⟩ := counted.child here
        rw [if_neg (by simpa using here), bind_of_ok (index_of_some indexed next)]
        refine (ih _ child found (observes.valid valid) fuel (depth + 1)
          ((observes.view valid).trans seen)).imp ?_ ?_
        · rintro _ last ⟨observesMore, answered⟩
          exact ⟨observes_frame.trans observes observesMore, answered⟩
        · rintro _ _ ⟨spent, low⟩
          refine ⟨spent, fun high => low ?_⟩
          obtain ⟨_, bound, heights⟩ := high
          exact Nat.succ.inj bound ▸ heights _
      · have free : bitmap.getLsbD (chunk key depth) = false := by simpa using here
        rw [if_pos free, absent _ (childAt_of_vacant free)]
        exact ⟨observes, misses⟩

variable {fuel : Nat}

/-- Listing a stored tree lists the entries of the trie, branch by branch. -/
theorem Stored.collectEntries_eq
    (stored : Stored traced.view hash trie) (valid : Valid traced.store)
    (enough : trie.HeightLe fuel) (out : List (Bytes × Bytes))
    : ∃ next,
        Observes traced next
        ∧ collectEntries fuel hash out traced
          = .ok (out ++ trie.entries (List.finRange 32)) next := by
  generalize seen : traced.view = view at stored
  induction stored generalizing traced fuel out with
  | leaf hash key value fits held =>
    obtain ⟨fuel, rfl⟩ : ∃ less, fuel = less + 1 := ⟨fuel - 1, by have : 0 < fuel := enough; omega⟩
    obtain ⟨next, observes, loaded⟩ := loadNode_of_held (.leaf key value) valid fits (seen ▸ held)
    refine ⟨next, observes, ?_⟩
    rw [collectEntries, bind_of_ok loaded]
    rfl
  | node hash bitmap children slots held counted nonempty absent present ih =>
    obtain ⟨fuel, rfl, inside⟩ := enough
    obtain ⟨next, observes, loaded⟩ := loadNode_of_held (.bitmap bitmap children) valid
      counted.fits (seen ▸ held)
    -- The loop over the children is a loop over the branches, of which some have no child.
    have loop (branches : List (Fin 32)) {start : Traced σ} (out : List (Bytes × Bytes))
        (startValid : Valid start.store) (startSeen : start.view = view)
        : ∃ last,
            Observes start last
            ∧ (branches.filterMap (childAt bitmap children)).foldlM
                (fun out child => collectEntries fuel child out) out start
              = .ok (out ++ branches.flatMap
                  fun branch => (slots branch).entries (List.finRange 32)) last := by
      induction branches generalizing start out with
      | nil => exact ⟨start, observes_frame.refl start, by simp⟩
      | cons branch rest ihRest =>
        cases found : childAt bitmap children branch with
        | none =>
          simpa [List.filterMap_cons, found, absent branch found, HashTrie.entries]
            using ihRest out startValid startSeen
        | some child =>
          obtain ⟨middle, observesFirst, collected⟩ :=
            ih branch child found startValid (inside branch) out startSeen
          obtain ⟨last, observesRest, finished⟩ := ihRest
            (out ++ (slots branch).entries (List.finRange 32))
            (observesFirst.valid startValid)
            ((observesFirst.view startValid).trans startSeen)
          refine ⟨last, observes_frame.trans observesFirst observesRest, ?_⟩
          rw [List.filterMap_cons, found, List.foldlM_cons, bind_of_ok collected,
            finished]
          simp [List.flatMap_cons]
    obtain ⟨last, observesLoop, listed⟩ := loop (List.finRange 32) out (observes.valid valid)
      ((observes.view valid).trans seen)
    refine ⟨last, observes_frame.trans observes observesLoop, ?_⟩
    rw [counted.filterMap_childAt] at listed
    rw [collectEntries, bind_of_ok loaded]
    exact listed

/-- Looking up a key under a root looks it up in the trie. -/
theorem Rooted.get_meets
    (rooted : Rooted traced.view root trie) (valid : Valid traced.store) (fuel : Nat)
    (key : Bytes)
    : Meets (fun found next => Observes traced next ∧ found = trie.get chunk key 0)
        (fun fault _ => fault = .fuel ∧ ¬ trie.HeightLe fuel)
        (get fuel root key traced) := by
  cases root with
  | none =>
    cases rooted
    exact ⟨observes_frame.refl traced, rfl⟩
  | some hash =>
    exact Stored.search_meets (fun fuel hash => getInternal fuel hash key (Hash.ofBytes key)) Eq
      (fun _ _ => rfl) (fun _ _ _ => rfl) rooted valid (fun _ _ _ => rfl) rfl fuel 0

theorem Rooted.get_eq (rooted : Rooted traced.view root trie)
    (valid : Valid traced.store) (enough : trie.HeightLe fuel) (key : Bytes)
    : ∃ next,
        Observes traced next
        ∧ get fuel root key traced = .ok (trie.get chunk key 0) next := by
  obtain ⟨_, next, looked, observes, rfl⟩ := (rooted.get_meets valid fuel key).returns
    fun _ _ spent => spent.2 enough
  exact ⟨next, observes, looked⟩

/-- Finding the leaf of a key under a root finds a stored leaf of the entry of the trie. -/
theorem Rooted.leafHash_meets
    (rooted : Rooted traced.view root trie) (valid : Valid traced.store) (fuel : Nat)
    (key : Bytes)
    : Meets
        (fun found next => Observes traced next
          ∧ Rooted traced.view found
              (((trie.get chunk key 0).map (HashTrie.leaf key)).getD .empty))
        (fun fault _ => fault = .fuel ∧ ¬ trie.HeightLe fuel)
        (leafHash fuel root key traced) := by
  cases root with
  | none =>
    cases rooted
    exact ⟨observes_frame.refl traced, rfl⟩
  | some hash =>
    exact Stored.search_meets (fun fuel hash => leafHashInternal fuel hash key (Hash.ofBytes key))
      (fun found value => Rooted traced.view found ((value.map (HashTrie.leaf key)).getD .empty))
      (fun _ _ => rfl) (fun _ _ _ => rfl) rooted valid (fun _ _ leaf => leaf) rfl fuel 0

/-- Listing the entries under a root lists those of the trie. -/
theorem Rooted.entries_eq
    (rooted : Rooted traced.view root trie) (valid : Valid traced.store)
    (enough : trie.HeightLe fuel)
    : ∃ next,
        Observes traced next
        ∧ entries fuel root traced = .ok (trie.entries (List.finRange 32)) next := by
  cases root with
  | none =>
    cases rooted
    exact ⟨traced, observes_frame.refl traced, rfl⟩
  | some hash => simpa [entries] using Stored.collectEntries_eq rooted valid enough []

-- Tries and root hashes

section Roots

variable {view first second : View} {hash other : Hash} {trie : Trie}

omit [Blake3] in
theorem Stored.ne_empty (stored : Stored view hash trie) : trie ≠ .empty := by
  cases stored <;> simp

omit [Blake3] in
theorem Counted.getLsbD_eq {bitmap : BitVec 32} {children : List Hash}
    (counted : Counted bitmap children) (branch : Fin 32)
    : bitmap.getLsbD branch = (childAt bitmap children branch).isSome := by
  cases here : bitmap.getLsbD branch with
  | false => rw [childAt_of_vacant here]; rfl
  | true =>
    obtain ⟨child, -, found⟩ := counted.child here
    rw [found]
    rfl

omit [Blake3] in
/-- Two nodes with the same child in every branch are equal. -/
theorem Counted.eq_of_childAt {bitmap bits : BitVec 32} {children kids : List Hash}
    (counted : Counted bitmap children) (otherCounted : Counted bits kids)
    (same : ∀ branch, childAt bitmap children branch = childAt bits kids branch)
    : HamtNode.bitmap bitmap children = .bitmap bits kids := by
  have lists : children = kids := by
    rw [← counted.filterMap_childAt, ← otherCounted.filterMap_childAt, funext same]
  have masks : bitmap = bits := by
    refine BitVec.eq_of_getLsbD_eq fun position inside => ?_
    have here := counted.getLsbD_eq ⟨position, inside⟩
    rw [same, ← otherCounted.getLsbD_eq] at here
    exact here
  rw [lists, masks]

/-- A trie has one root hash, wherever it is stored. -/
theorem Stored.hash_eq (stored : Stored first hash trie) (also : Stored second other trie)
    (keyed : ∀ hash record, first hash = some record → Hash.ofBytes record.2 = hash)
    (otherKeyed : ∀ hash record, second hash = some record → Hash.ofBytes record.2 = hash)
    : hash = other := by
  induction stored generalizing other with
  | leaf hash key value fits held =>
    cases also with
    | leaf _ _ _ _ otherHeld => exact (keyed _ _ held).symm.trans (otherKeyed _ _ otherHeld)
  | node hash bitmap children slots held counted nonempty absent present ih =>
    cases also with
    | node _ bits kids _ otherHeld otherCounted _ otherAbsent otherPresent =>
      have same (branch : Fin 32) : childAt bitmap children branch = childAt bits kids branch := by
        cases found : childAt bitmap children branch with
        | none =>
          cases otherFound : childAt bits kids branch with
          | none => rfl
          | some child =>
            exact absurd (absent branch found)
              (otherPresent branch child otherFound).ne_empty
        | some child =>
          cases otherFound : childAt bits kids branch with
          | none =>
            exact absurd (otherAbsent branch otherFound)
              (present branch child found).ne_empty
          | some kid => rw [ih branch child found (otherPresent branch kid otherFound)]
      rw [← keyed _ _ held, ← otherKeyed _ _ otherHeld]
      exact congrArg (fun node => Hash.ofBytes node.encode) (counted.eq_of_childAt otherCounted same)

theorem Rooted.root_eq {root otherRoot : Option Hash} (rooted : Rooted first root trie)
    (also : Rooted second otherRoot trie)
    (keyed : ∀ hash record, first hash = some record → Hash.ofBytes record.2 = hash)
    (otherKeyed : ∀ hash record, second hash = some record → Hash.ofBytes record.2 = hash)
    : root = otherRoot := by
  cases root with
  | none =>
    cases otherRoot with
    | none => rfl
    | some hash => exact absurd rooted (Stored.ne_empty also)
  | some hash =>
    cases otherRoot with
    | none => exact absurd also (Stored.ne_empty rooted)
    | some other => exact congrArg some (Stored.hash_eq rooted also keyed otherKeyed)

end Roots
end Epochs.PersistentHamt
