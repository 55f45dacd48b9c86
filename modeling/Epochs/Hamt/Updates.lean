import Epochs.Hamt.Stored

/-! Insertion and removal as updates of the trie a root stands for. From a sound store, each
new root stands for the trie that results from inserting or removing the key.
-/

namespace Epochs.PersistentHamt

open Lib Run Traced HashTrie

variable {σ : Type} [Blake3] [CasBackend σ] [LawfulCas σ] {traced : Traced σ}

-- Insertion

theorem insertInternal_evolves (fuel : Nat) (nodeHash : Option Hash) (key value : Bytes)
    (keyHash : Hash) (depth : Nat)
    : Within (@Evolves σ _ _ _)
        (insertInternal fuel nodeHash key value keyHash depth) :=
  (insertInternal_within evolves_frame getRecord_evolves
    (fun _ => put_evolves _ _)
    fuel).1 _ _ _ _ _

omit [LawfulCas σ] in
theorem insertInternal_grows (fuel : Nat) (nodeHash : Option Hash) (key value : Bytes)
    (keyHash : Hash) (depth : Nat)
    : Within (@Grows σ) (insertInternal fuel nodeHash key value keyHash depth) :=
  (insertInternal_within grows_frame getRecord_grows
    (fun _ => put_grows _ _)
    fuel).1 _ _ _ _ _

variable {key value : Bytes}

/-- A leaf just written is a stored tree. -/
theorem persistLeaf_achieves (sound : traced.Sound)
    (fits : (HamtNode.leaf key value).Fits)
    : Achieves (fun hash next => Stored next.view hash (.leaf key value))
        (Refused σ) (persistLeaf key value traced) :=
  (put_achieves sound _ _).imp (fun hash _ written => .leaf hash key value fits written.2)
    fun _ => id

/-- A bitmap node just written over stored children is a stored tree. -/
theorem persistBitmap_achieves (sound : traced.Sound) {bitmap : BitVec 32}
    {children : List Hash} {slots : Fin 32 → Trie}
    (node : Node traced.view bitmap children slots)
    : Achieves (fun hash next => Stored next.view hash (.node slots))
        (Refused σ) (persistBitmap bitmap children traced) :=
  (put_achieves sound _ _).imp
    (fun hash _ written => .node hash bitmap children slots written.2 node.counted node.nonempty
      node.absent (node.mono written.1).present)
    fun _ => id

/-- Two leaves of different branches under one new node are a split of the trie. -/
theorem persistPair_achieves (sound : traced.Sound) {found old : Bytes} {level : Nat}
    {oldLeaf newLeaf : Hash} (differ : chunk found level ≠ chunk key level)
    (first : Stored traced.view oldLeaf (.leaf found old))
    (second : Stored traced.view newLeaf (.leaf key value))
    : Achieves
        (fun hash next =>
          Stored next.view hash (.node (pair chunk level found old key value)))
        (Refused σ)
        (persistBitmap (bitMask (chunk found level) ||| bitMask (chunk key level))
          (pairOf (chunk found level) (chunk key level) oldLeaf newLeaf) traced) := by
  refine persistBitmap_achieves sound ⟨counted_pair differ _ _, ?_, ?_, ?_⟩
  · unfold pairOf
    split <;> simp
  · intro branch free
    rw [childAt_pair differ] at free
    by_cases isKey : branch = chunk key level
    · simp [isKey] at free
    · by_cases isFound : branch = chunk found level
      · simp [isFound, differ] at free
      · simp [pair, isKey, isFound]
  · intro branch child here
    rw [childAt_pair differ] at here
    by_cases isKey : branch = chunk key level
    · rw [if_pos isKey] at here
      cases here
      simpa [pair, isKey, Ne.symm differ] using second
    · rw [if_neg isKey] at here
      by_cases isFound : branch = chunk found level
      · rw [if_pos isFound] at here
        cases here
        simpa [pair, isFound] using first
      · simp [isFound] at here

/-- Expanding a leaf splits it at the first level at which the two keys differ, and spends two
calls for each level before.
-/
theorem expandLeafCollision_achieves (fuel : Nat) (sound : traced.Sound) (depth : Nat)
    {found old : Bytes} (different : found ≠ key) (oldFits : (HamtNode.leaf found old).Fits)
    : Achieves
        (fun hash next => ∃ level,
          depth ≤ level
          ∧ (∀ between, depth ≤ between → between < level
              → chunk found between = chunk key between)
          ∧ chunk found level ≠ chunk key level
          ∧ ((HamtNode.leaf key value).Fits
            → Stored next.view hash (.node (pair chunk level found old key value))))
        (fun fault => Refused σ fault
          ∨ (fault = .fuel ∧ ∀ level, depth ≤ level → 2 * (level - depth) < fuel
            → chunk found level = chunk key level))
        (expandLeafCollision fuel found old (Hash.ofBytes found) key value (Hash.ofBytes key)
          depth traced) := by
  induction fuel using Nat.strongRecOn generalizing traced depth with
  | ind fuel ih =>
    cases fuel with
    | zero =>
      intro _
      simp [expandLeafCollision]
    | succ fuel =>
      unfold expandLeafCollision
      simp only [extract5Bits_eq]
      by_cases agree : chunk found depth = chunk key depth
      · rw [if_pos agree]
        refine .bind sound (put_evolves _ _) (fun hash => insertInternal_grows _ _ _ _ _ _)
          ((persistLeaf_achieves sound oldFits).imp (fun _ _ => id) fun _ => Or.inl) ?_
        intro leafHash middle middleSound _ leaf
        have onward {level : Nat} (low : depth ≤ level)
            (later : depth < level → chunk found level = chunk key level)
            : chunk found level = chunk key level := by
          rcases Nat.eq_or_lt_of_le low with rfl | above
          · exact agree
          · exact later above
        cases fuel with
        | zero =>
          intro _
          exact .inr ⟨rfl, fun level low early => onward low (by omega)⟩
        | succ fuel =>
          obtain ⟨next, observes, loaded⟩ := leaf.loadNode_eq middleSound.valid
          rw [insertInternal, bind_of_ok loaded]
          simp only [if_neg different]
          refine (ih fuel (by omega) (observes.sound middleSound) (depth + 1)).imp ?_ ?_
          · rintro hash last ⟨level, deeper, below, differ, stored⟩
            exact ⟨level, by omega, fun between low high => onward low fun above =>
              below between above high, differ, stored⟩
          · rintro fault (refused | ⟨spent, below⟩)
            · exact .inl refused
            · exact .inr ⟨spent, fun level low early => onward low fun above =>
                below level above (by omega)⟩
      · rw [if_neg agree]
        refine .bind sound (put_evolves _ _) (fun hash => ?_)
          ((persistLeaf_achieves sound oldFits).imp (fun _ _ => id) fun _ => Or.inl) ?_
        · exact .bind grows_frame (put_grows _ _) fun _ => put_grows _ _
        intro oldLeaf middle middleSound _ first
        refine .bind middleSound (put_evolves _ _) (fun hash => put_grows _ _)
          ((put_achieves middleSound _ _).imp (fun _ _ => id) fun _ => Or.inl) ?_
        rintro newLeaf last lastSound more ⟨-, held⟩
        have none : ∀ between, depth ≤ between → between < depth
            → chunk found between = chunk key between := fun _ low high => absurd high (by omega)
        by_cases fits : (HamtNode.leaf key value).Fits
        · refine (persistPair_achieves lastSound agree (first.mono more)
            (.leaf newLeaf key value fits held)).imp ?_ fun _ => Or.inl
          exact fun hash next stored => ⟨depth, Nat.le_refl _, none, agree, fun _ => stored⟩
        · refine (put_achieves lastSound _ _).imp ?_ fun _ => Or.inl
          exact fun hash next _ => ⟨depth, Nat.le_refl _, none, agree, (absurd · fits)⟩

variable {trie : Trie}

/-- Inserting into a stored tree inserts into the trie. The budget is spent only on a skipped
level or a tree too high for it.
-/
theorem Stored.insertInternal_achieves {hash : Hash}
    (stored : Stored traced.view hash trie) (sound : traced.Sound)
    (fits : (HamtNode.leaf key value).Fits) (fuel depth : Nat)
    : Achieves
        (fun newHash next => ∃ after,
          Inserted chunk key value depth trie after ∧ Stored next.view newHash after)
        (fun fault => Refused σ fault
          ∨ (fault = .fuel ∧ (trie.SkipsLevel chunk key depth ∨ ¬ trie.HeightLe (fuel - 1))))
        (insertInternal fuel (some hash) key value (Hash.ofBytes key) depth traced) := by
  generalize seen : traced.view = view at stored
  induction stored generalizing traced fuel depth with
  | leaf hash found old oldFits held =>
    cases fuel with
    | zero =>
      intro _
      simp [insertInternal, HeightLe]
    | succ fuel =>
      obtain ⟨next, observes, loaded⟩ := loadNode_of_held (.leaf found old) sound.valid oldFits
        (seen ▸ held)
      have nextSound := observes.sound sound
      rw [insertInternal, bind_of_ok loaded]
      by_cases same : found = key
      · subst same
        simp only [if_true]
        exact (persistLeaf_achieves nextSound fits).imp
          (fun _ _ leaf => ⟨_, .same depth old, leaf⟩) fun _ => Or.inl
      · simp only [if_neg same]
        refine (expandLeafCollision_achieves fuel nextSound depth same oldFits).imp ?_ ?_
        · rintro newHash last ⟨level, below, agree, differ, split⟩
          exact ⟨_, .split depth level found old same below agree differ, split fits⟩
        · rintro fault (refused | ⟨spent, agree⟩)
          · exact .inl refused
          · refine .inr ⟨spent, ?_⟩
            rcases Nat.eq_zero_or_pos fuel with rfl | more
            · exact .inr (Nat.lt_irrefl 0)
            · exact .inl ⟨same, agree depth (Nat.le_refl _) (by omega)⟩
  | node hash bitmap children slots held counted nonempty absent present ih =>
    cases fuel with
    | zero =>
      intro _
      simp [insertInternal, HeightLe]
    | succ fuel =>
      obtain ⟨next, observes, loaded⟩ := loadNode_of_held (.bitmap bitmap children) sound.valid
        counted.fits (seen ▸ held)
      have nextSound := observes.sound sound
      have nextSeen : next.view = view := (observes.view sound.valid).trans seen
      have node : Node view bitmap children slots := ⟨counted, nonempty, absent, present⟩
      rw [insertInternal, bind_of_ok loaded]
      simp only [ne_eq, and_bitMask_eq_zero, extract5Bits_eq]
      by_cases here : bitmap.getLsbD (chunk key depth) = true
      · obtain ⟨child, indexed, found⟩ := counted.child here
        rw [if_pos (by simpa using here), bind_of_ok (index_of_some indexed next)]
        refine .bind nextSound (insertInternal_evolves _ _ _ _ _ _) (fun newChild => ?_)
          ((ih _ child found nextSound fuel (depth + 1) nextSeen).imp (fun _ _ => id) ?_) ?_
        · exact .bind grows_frame (.setAt grows_frame _ _ _)
            fun _ => put_grows _ _
        · rintro fault (refused | ⟨spent, skips | low⟩)
          · exact .inl refused
          · exact .inr ⟨spent, .inl skips⟩
          · refine .inr ⟨spent, .inr fun high => low ?_⟩
            obtain ⟨inner, bound, heights⟩ := high
            have budget : fuel - 1 = inner := by omega
            exact budget ▸ heights _
        · rintro newChild middle middleSound more ⟨after, inserted, storedChild⟩
          rw [bind_of_ok (setAt_of_lt (counted.childIndex_lt here) newChild middle)]
          have updated := (node.mono (nextSeen ▸ more)).set here storedChild
          exact (persistBitmap_achieves middleSound updated).imp
            (fun _ _ stored => ⟨_, .descend depth slots after inserted, stored⟩)
            fun _ => Or.inl
      · have free : bitmap.getLsbD (chunk key depth) = false := by simpa using here
        rw [if_neg (by simpa using free)]
        refine .bind nextSound (put_evolves _ _) (fun newLeaf => ?_)
          ((persistLeaf_achieves nextSound fits).imp (fun _ _ => id) fun _ => Or.inl) ?_
        · exact .bind grows_frame (.insertAt grows_frame _ _ _)
            fun _ => put_grows _ _
        · intro newLeaf middle middleSound more leaf
          rw [bind_of_ok (insertAt_of_le counted.childIndex_le newLeaf middle)]
          have extended := (node.mono (nextSeen ▸ more)).insert free leaf
          have vacant : slots (chunk key depth) = .empty := absent _ (childAt_of_vacant free)
          exact (persistBitmap_achieves middleSound extended).imp
            (fun _ _ stored => ⟨_, .descend depth slots _ (vacant ▸ .empty _), stored⟩)
            fun _ => Or.inl

/-- Inserting under a root inserts into the trie the root stands for. -/
theorem Rooted.insert_achieves {root : Option Hash}
    (rooted : Rooted traced.view root trie) (sound : traced.Sound)
    (fits : (HamtNode.leaf key value).Fits) (fuel : Nat)
    : Achieves
        (fun newHash next => ∃ after,
          Inserted chunk key value 0 trie after ∧ Stored next.view newHash after)
        (fun fault => Refused σ fault
          ∨ (fault = .fuel
            ∧ (fuel = 0 ∨ trie.SkipsLevel chunk key 0 ∨ ¬ trie.HeightLe (fuel - 1))))
        (insert fuel root key value traced) := by
  cases root with
  | none =>
    cases rooted
    cases fuel with
    | zero =>
      intro _
      simp [insert, insertInternal]
    | succ fuel =>
      rw [insert, insertInternal]
      exact (persistLeaf_achieves sound fits).imp (fun _ _ leaf => ⟨_, .empty 0, leaf⟩)
        fun _ => Or.inl
  | some hash =>
    exact (Stored.insertInternal_achieves rooted sound fits fuel 0).imp (fun _ _ => id)
      fun _ => Or.imp_right (And.imp_right Or.inr)

-- Removal

theorem removeInternal_evolves (fuel : Nat) (nodeHash : Hash) (key : Bytes) (keyHash : Hash)
    (depth : Nat)
    : Within (@Evolves σ _ _ _) (removeInternal fuel nodeHash key keyHash depth) :=
  removeInternal_within evolves_frame getRecord_evolves
    (fun _ => put_evolves _ _) fuel _ _ _ _

/-- Removing from a stored tree removes from the trie, given a budget for its height. -/
theorem Stored.removeInternal_achieves {hash : Hash}
    (stored : Stored traced.view hash trie) (sound : traced.Sound) (key : Bytes)
    (fuel depth : Nat)
    : Achieves
        (fun root next => ∃ after,
          Removed chunk key depth trie after ∧ Rooted next.view root after)
        (fun fault => Refused σ fault ∨ (fault = .fuel ∧ ¬ trie.HeightLe fuel))
        (removeInternal fuel hash key (Hash.ofBytes key) depth traced) := by
  generalize seen : traced.view = view at stored
  induction stored generalizing traced fuel depth with
  | leaf hash found old fits held =>
    cases fuel with
    | zero =>
      intro _
      simp [removeInternal, HeightLe]
    | succ fuel =>
      obtain ⟨next, observes, loaded⟩ := loadNode_of_held (.leaf found old) sound.valid fits
        (seen ▸ held)
      have kept : Stored next.view hash (.leaf found old) :=
        .leaf hash found old fits (by rw [observes.view sound.valid, seen, held])
      rw [removeInternal, bind_of_ok loaded]
      by_cases same : found = key
      · subst same
        intro _
        simp only [if_true, pure_apply, meets_ok]
        exact ⟨_, .hit depth old, rfl⟩
      · intro _
        simp only [if_neg same, pure_apply, meets_ok]
        exact ⟨_, .miss depth found old same, kept⟩
  | node hash bitmap children slots held counted nonempty absent present ih =>
    cases fuel with
    | zero =>
      intro _
      simp [removeInternal, HeightLe]
    | succ fuel =>
      obtain ⟨next, observes, loaded⟩ := loadNode_of_held (.bitmap bitmap children) sound.valid
        counted.fits (seen ▸ held)
      have nextSound := observes.sound sound
      have nextSeen : next.view = view := (observes.view sound.valid).trans seen
      have node : Node view bitmap children slots := ⟨counted, nonempty, absent, present⟩
      rw [removeInternal, bind_of_ok loaded]
      simp only [and_bitMask_eq_zero, extract5Bits_eq]
      by_cases here : bitmap.getLsbD (chunk key depth) = true
      · obtain ⟨child, indexed, found⟩ := counted.child here
        rw [if_neg (by simpa using here), bind_of_ok (index_of_some indexed next)]
        refine .bind nextSound (removeInternal_evolves _ _ _ _ _) (fun removed => ?_)
          ((ih _ child found nextSound fuel (depth + 1) nextSeen).imp (fun _ _ => id) ?_) ?_
        · cases removed with
          | none =>
            refine .bind grows_frame (.removeAt grows_frame _ _) fun rest => ?_
            split
            · exact .pure grows_frame _
            · exact .bind grows_frame (put_grows _ _)
                fun _ => .pure grows_frame _
          | some newChild =>
            exact .bind grows_frame (.setAt grows_frame _ _ _)
              fun _ => .bind grows_frame (put_grows _ _)
              fun _ => .pure grows_frame _
        · rintro fault (refused | ⟨spent, low⟩)
          · exact .inl refused
          · refine .inr ⟨spent, fun high => low ?_⟩
            obtain ⟨inner, bound, heights⟩ := high
            have budget : fuel = inner := by omega
            exact budget ▸ heights _
        · rintro removed middle middleSound more ⟨after, inside, rooted⟩
          have kept := node.mono (nextSeen ▸ more)
          cases removed with
          | none =>
            have gone : after = .empty := rooted
            subst gone
            simp only
            rw [bind_of_ok (removeAt_of_lt (counted.childIndex_lt here) middle)]
            by_cases last : children.eraseIdx (childIndex bitmap (chunk key depth)) = []
            · intro _
              simp only [last, List.isEmpty_nil, if_true, pure_apply, meets_ok]
              exact ⟨_, .vanish depth slots inside (kept.alone here last), rfl⟩
            · rw [if_neg (by simpa using last)]
              refine .bind middleSound (put_evolves _ _)
                (fun _ => .pure grows_frame _)
                ((persistBitmap_achieves middleSound (kept.remove here last)).imp
                  (fun _ _ => id) fun _ => Or.inl) ?_
              intro newHash last _ _ stored _
              exact ⟨_, .descend depth slots _ inside, stored⟩
          | some newChild =>
            simp only
            rw [bind_of_ok (setAt_of_lt (counted.childIndex_lt here) newChild middle)]
            refine .bind middleSound (put_evolves _ _)
              (fun _ => .pure grows_frame _)
              ((persistBitmap_achieves middleSound (kept.set here rooted)).imp
                (fun _ _ => id) fun _ => Or.inl) ?_
            intro newHash last _ _ stored _
            exact ⟨_, .descend depth slots _ inside, stored⟩
      · have free : bitmap.getLsbD (chunk key depth) = false := by simpa using here
        have vacant : slots (chunk key depth) = .empty := absent _ (childAt_of_vacant free)
        have unchanged := Removed.descend depth slots (slots (chunk key depth))
          (by rw [vacant]; exact .empty _)
        rw [Function.update_eq_self] at unchanged
        intro _
        rw [if_pos free, pure_apply, meets_ok]
        refine ⟨_, unchanged, .node hash bitmap children slots ?_ counted nonempty absent ?_⟩
        · rw [nextSeen, held]
        · rw [nextSeen]
          exact present

/-- Removing under a root removes from the trie the root stands for. -/
theorem Rooted.remove_achieves {root : Option Hash}
    (rooted : Rooted traced.view root trie) (sound : traced.Sound) (key : Bytes) (fuel : Nat)
    : Achieves
        (fun newRoot next => ∃ after,
          Removed chunk key 0 trie after ∧ Rooted next.view newRoot after)
        (fun fault => Refused σ fault ∨ (fault = .fuel ∧ ¬ trie.HeightLe fuel))
        (remove fuel root key traced) := by
  cases root with
  | none =>
    cases rooted
    intro _
    exact ⟨_, .empty 0, rfl⟩
  | some hash => exact Stored.removeInternal_achieves rooted sound key fuel 0

end Epochs.PersistentHamt
