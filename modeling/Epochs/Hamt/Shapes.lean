import Epochs.Hamt.Laws

/-! What holds of every run of insertions and removals, also of one that skips levels: the tree
under the root has well-shaped nodes only, so that no operation indexes out of range or fails
to load a node, and removal takes away one key and touches no other.
-/

namespace Epochs.PersistentHamt

open Lib Traced

-- Runs

section Standing

variable {σ : Type} [Blake3] [CasBackend σ] [LawfulCas σ] {traced : Traced σ}

structure Standing (traced : Traced σ) (root : Option Hash) (trie : Trie) (bound : Nat)
    : Prop where
  sound : traced.Sound
  rooted : Rooted traced.view root trie
  height : trie.HeightLe bound

theorem standing_empty (sound : traced.Sound) : Standing traced none .empty 0 :=
  ⟨sound, rfl, trivial⟩

variable (σ) in
def Stops (fault : Fault EpochsError) : Prop :=
  Traced.Refused σ fault ∨ fault = .fuel

variable {root : Option Hash}

/-- An operation leads from a trie to a trie. -/
theorem Standing.apply_achieves {trie : Trie} {bound : Nat}
    (standing : Standing traced root trie bound) {op : HamtOp} (fits : op.Fits) (fuel : Nat)
    : Achieves
        (fun newRoot next => ∃ after, op.Updates trie after
          ∧ Standing next newRoot after (bound + 1))
        (Stops σ) (op.apply fuel root traced) := by
  cases op with
  | insert key value =>
    refine .bind standing.sound
      (insert_within evolves_frame getRecord_evolves
        (fun _ => put_evolves _ _) _ _ _ _)
      (fun _ => .pure grows_frame _)
      ((standing.rooted.insert_achieves standing.sound fits fuel).imp (fun _ _ => id)
        fun _ => Or.imp_right And.left) ?_
    rintro newHash next sound - ⟨after, inserted, stored⟩ _
    exact ⟨after, inserted, sound, stored, inserted.heightLe standing.height⟩
  | remove key =>
    have removes := (standing.rooted.remove_achieves standing.sound key fuel).sound
      (remove_within evolves_frame getRecord_evolves
        (fun _ => put_evolves _ _) _ _ _)
      standing.sound
    refine removes.imp ?_ fun _ => Or.imp_right And.left
    rintro newRoot next ⟨sound, -, after, removed, rooted⟩
    exact ⟨after, removed, sound, rooted,
      (removed.heightLe standing.height).mono (Nat.le_succ _)⟩

/-- A run leads from a trie to a trie. -/
theorem Standing.runOps_achieves {trie : Trie} {bound : Nat}
    (standing : Standing traced root trie bound) {ops : List HamtOp} (fits : ∀ op ∈ ops, op.Fits)
    (fuel : Nat)
    : Achieves
        (fun newRoot next => ∃ after, Updated ops trie after
          ∧ Standing next newRoot after (bound + ops.length))
        (Stops σ) (runOps fuel ops root traced) := by
  induction ops generalizing traced root trie bound with
  | nil =>
    intro _
    exact ⟨trie, rfl, standing⟩
  | cons op rest ih =>
    refine .bind standing.sound (op.apply_evolves fuel root) (runOps_grows fuel rest)
      (standing.apply_achieves (fits op (by simp)) fuel) ?_
    rintro nextRoot next - - ⟨middle, updates, nextStanding⟩
    have later := ih nextStanding fun op member => fits op (by simp [member])
    rw [Nat.add_assoc, Nat.add_comm 1, ← List.length_cons] at later
    refine later.imp ?_ fun _ => id
    rintro newRoot last ⟨after, updated, stands⟩
    exact ⟨after, ⟨middle, updates, updated⟩, stands⟩

/-- The root a run from the empty tree returned stands for a trie no higher than the run is
long.
-/
theorem standing_of_runOps (sound : traced.Sound) {ops : List HamtOp}
    (fits : ∀ op ∈ ops, op.Fits) {fuel : Nat} {last : Traced σ}
    (ran : runOps fuel ops none traced = .ok root last)
    (admissible : Admissible σ last.handed)
    : ∃ trie, Updated ops .empty trie ∧ Standing last root trie ops.length := by
  have achieves := (standing_empty sound).runOps_achieves fits fuel
  rw [ran] at achieves
  simpa using achieves admissible

end Standing

-- Removal

section Removal

variable {σ : Type} [Blake3] [CasBackend σ] [LawfulCas σ] {traced : Traced σ}

omit [CasBackend σ] [LawfulCas σ] in
/-- Removing a key that is not found changes nothing in a stored trie. -/
theorem Stored.removed_absent {view : View} {hash : Hash} {trie after : Trie} {key : Bytes}
    {depth : Nat} (stored : Stored view hash trie)
    (removed : HashTrie.Removed chunk key depth trie after)
    (absent : trie.get chunk key depth = none)
    : after = trie := by
  induction stored generalizing after depth with
  | leaf hash found old =>
    cases removed with
    | hit => simp [HashTrie.get] at absent
    | miss => rfl
  | node hash bitmap children slots held counted nonempty vacant present ih =>
    have inner {next : Trie}
        (inside : HashTrie.Removed chunk key (depth + 1) (slots (chunk key depth)) next)
        : next = slots (chunk key depth) := by
      cases found : childAt bitmap children (chunk key depth) with
      | none =>
        rw [vacant _ found] at inside ⊢
        cases inside
        rfl
      | some child => exact ih _ child found inside absent
    cases removed with
    | descend _ _ next inside => rw [inner inside, Function.update_eq_self]
    | vanish _ _ inside alone =>
      -- A stored node has a child, and its slot is not empty.
      obtain ⟨child, member⟩ := List.exists_mem_of_ne_nil children nonempty
      rw [← counted.filterMap_childAt, List.mem_filterMap] at member
      obtain ⟨branch, -, found⟩ := member
      refine absurd ?_ (present branch child found).ne_empty
      by_cases here : branch = chunk key depth
      · rw [here, ← inner inside]
      · exact alone branch here

omit [CasBackend σ] [LawfulCas σ] in
theorem Rooted.removed_absent {view : View} {root : Option Hash} {trie after : Trie} {key : Bytes}
    (rooted : Rooted view root trie) (removed : HashTrie.Removed chunk key 0 trie after)
    (absent : trie.get chunk key 0 = none)
    : after = trie := by
  cases root with
  | none =>
    cases rooted
    cases removed
    rfl
  | some hash => exact Stored.removed_absent rooted removed absent

/-- After any run from the empty tree, removing a key makes it read nothing, leaves every other
key as it read before, and returns the same root if the key read nothing already.
-/
theorem remove_law (sound : traced.Sound) {ops : List HamtOp} (fits : ∀ op ∈ ops, op.Fits)
    {fuel : Nat} {root : Option Hash} {middle : Traced σ}
    (ran : runOps fuel ops none traced = .ok root middle) (key : Bytes) {larger : Nat}
    (enough : ops.length ≤ larger)
    : Traced.Achieves
        (fun newRoot last =>
          (∃ after, get larger newRoot key last = .ok none after)
          ∧ (∀ other, other ≠ key → ∃ found before after,
              get larger root other middle = .ok found before
              ∧ get larger newRoot other last = .ok found after)
          ∧ ((∃ after, get larger root key middle = .ok none after) → newRoot = root))
        (Traced.Refused σ) (remove larger root key middle) := by
  intro admissible
  have earlier : Traced.Admissible σ middle.handed := admissible.of_isPrefix
    (remove_within Traced.grows_frame Traced.getRecord_grows
      (fun _ => Traced.put_grows _ _) larger root key middle)
  obtain ⟨trie, -, standing⟩ := standing_of_runOps sound fits ran earlier
  have low := standing.height.mono enough
  have removes := (standing.rooted.remove_achieves standing.sound key larger).sound
    (remove_within Traced.evolves_frame Traced.getRecord_evolves
      (fun _ => Traced.put_evolves _ _) _ _ _) standing.sound admissible
  cases outcome : remove larger root key middle with
  | error reason last =>
    rw [outcome] at removes
    rcases removes with refused | ⟨-, high⟩
    · exact refused
    · exact absurd low high
  | ok newRoot last =>
    rw [outcome] at removes
    obtain ⟨lastSound, -, after, removed, rooted⟩ := removes
    have lowAfter := removed.heightLe low
    have reads (other : Bytes) := rooted.get_eq lastSound.valid lowAfter other
    have readBefore (other : Bytes) := standing.rooted.get_eq standing.sound.valid low other
    refine ⟨?_, fun other different => ?_, ?_⟩
    · obtain ⟨next, -, looked⟩ := reads key
      rw [removed.get_self] at looked
      exact ⟨next, looked⟩
    · obtain ⟨next, -, looked⟩ := reads other
      obtain ⟨before, -, lookedBefore⟩ := readBefore other
      rw [removed.get_other different] at looked
      exact ⟨_, before, next, lookedBefore, looked⟩
    · rintro ⟨next, lookedNone⟩
      obtain ⟨before, -, lookedBefore⟩ := readBefore key
      rw [lookedNone] at lookedBefore
      obtain rfl : after = trie :=
        standing.rooted.removed_absent removed (EStateM.Result.ok.inj lookedBefore).1.symm
      exact rooted.root_eq standing.rooted lastSound.keyed standing.sound.keyed

end Removal

section RemovalRun

attribute [local instance] Blake3.linked

/-- The law after a run over keys of different branches, for a key it leaves. -/
theorem remove_law_separateKeys
    : ∃ root middle newRoot last,
        runOps 5 separateKeys none fresh = .ok root middle
        ∧ remove 5 root [0x62] middle = .ok newRoot last
        ∧ ∃ after, get 5 newRoot [0x62] last = .ok none after := by
  have whole : (Run.valueOf (runOps 5 (separateKeys ++ [.remove [0x62]]) none fresh)).isSome := by
    decide +kernel
  have clashFree : ClashFreeWithin 5 (separateKeys ++ [.remove [0x62]]) := by decide +kernel
  obtain ⟨newRoot, last, ran⟩ := Run.exists_eq_ok whole
  rw [ClashFreeWithin, ran] at clashFree
  rw [runOps_append] at ran
  obtain ⟨root, middle, ran, removed⟩ := Run.bind_eq_ok.mp ran
  obtain ⟨_, _, removed, finished⟩ := Run.bind_eq_ok.mp removed
  cases finished
  have law := remove_law fresh_mapped.sound separateKeys_fits ran [0x62] (by decide : _ ≤ 5)
  rw [show remove 5 root [0x62] middle = .ok newRoot last from removed] at law
  exact ⟨root, middle, newRoot, last, ran, removed, (law ⟨clashFree, fun _ _ => trivial⟩).1⟩

end RemovalRun

-- Node shapes

section Shapes

/-- The nodes of the tree under a root. -/
inductive Below (view : View) (root : Hash) : Hash → Prop
  | root : Below view root root
  | child {hash child : Hash} {bitmap : BitVec 32} {children : List Hash}
    (below : Below view root hash) (node : nodeAt view hash = some (.bitmap bitmap children))
    (member : child ∈ children)
    : Below view root child

def WellShaped : HamtNode → Prop
  | .bitmap bitmap children =>
    children.length = countOnes bitmap ∧ 1 ≤ children.length ∧ children.length ≤ 32
  | .leaf _ _ => True

/-- The root of a stored tree is a well-shaped node with stored children. -/
theorem Stored.wellShaped_node {view : View} {hash : Hash} {trie : Trie} (stored : Stored view hash trie)
    : ∃ node,
        nodeAt view hash = some node
        ∧ WellShaped node
        ∧ ∀ bitmap children, node = .bitmap bitmap children
          → ∀ child ∈ children, ∃ inner, Stored view child inner := by
  cases stored with
  | leaf _ key value fits held =>
    exact ⟨_, nodeAt_of_held (.leaf key value) fits held, trivial, fun _ _ same => nomatch same⟩
  | node _ bitmap children slots held counted nonempty absent present =>
    refine ⟨_, nodeAt_of_held (.bitmap bitmap children) counted.fits held,
      ⟨counted, List.length_pos_iff.mpr nonempty, counted.length_le⟩, ?_⟩
    rintro _ _ same child member
    cases same
    rw [← counted.filterMap_childAt, List.mem_filterMap] at member
    obtain ⟨branch, -, found⟩ := member
    exact ⟨_, present branch child found⟩

/-- Below a stored tree there are stored trees only. -/
theorem Stored.stored_below {view : View} {root hash : Hash} {trie : Trie}
    (stored : Stored view root trie) (below : Below view root hash)
    : ∃ inner, Stored view hash inner := by
  induction below with
  | root => exact ⟨trie, stored⟩
  | child _ node member ih =>
    obtain ⟨inner, here⟩ := ih
    obtain ⟨_, found, -, children⟩ := here.wellShaped_node
    rw [node] at found
    cases found
    exact children _ _ rfl _ member

variable {σ : Type} [Blake3] [CasBackend σ] [LawfulCas σ] {traced : Traced σ}

/-- Under the root of any run from the empty tree every node is held, readable and well shaped.
Whatever its budget, no lookup, insertion or removal there indexes out of range or fails to
load a node: it can only spend its budget, which for lookup and removal the length of the run
covers, or have a write refused by the store.
-/
theorem nodes_wellShaped (sound : traced.Sound) {ops : List HamtOp} (fits : ∀ op ∈ ops, op.Fits)
    {fuel : Nat} {root : Option Hash} {last : Traced σ}
    (ran : runOps fuel ops none traced = .ok root last)
    (admissible : Traced.Admissible σ last.handed)
    : (∀ top hash, root = some top → Below last.view top hash
        → ∃ node, nodeAt last.view hash = some node ∧ WellShaped node)
      ∧ ∀ (budget : Nat) (key : Bytes),
          Run.Meets (fun _ _ => True) (fun fault _ => fault = .fuel ∧ budget < ops.length)
            (get budget root key last)
          ∧ Run.Meets (fun _ _ => True) (fun fault _ => fault = .fuel ∧ budget < ops.length)
              (leafHash budget root key last)
          ∧ Traced.Achieves (fun _ _ => True)
              (fun fault => Traced.Refused σ fault ∨ (fault = .fuel ∧ budget < ops.length))
              (remove budget root key last)
          ∧ ∀ value, (HamtNode.leaf key value).Fits
            → Traced.Achieves (fun _ _ => True)
                (fun fault => Traced.Refused σ fault ∨ fault = .fuel)
                (insert budget root key value last) := by
  obtain ⟨trie, -, standing⟩ := standing_of_runOps sound fits ran admissible
  refine ⟨fun top hash is below => ?_, fun budget key => ?_⟩
  · subst is
    obtain ⟨inner, stored⟩ := Stored.stored_below standing.rooted below
    obtain ⟨node, found, shaped, -⟩ := stored.wellShaped_node
    exact ⟨node, found, shaped⟩
  have high (low : ¬ trie.HeightLe budget) : budget < ops.length :=
    Nat.lt_of_not_le fun enough => low (standing.height.mono enough)
  refine ⟨?_, ?_, ?_, fun value small => ?_⟩
  · exact (standing.rooted.get_meets standing.sound.valid budget key).imp (fun _ _ _ => trivial)
      fun _ _ => And.imp_right high
  · exact (standing.rooted.leafHash_meets standing.sound.valid budget key).imp
      (fun _ _ _ => trivial) fun _ _ => And.imp_right high
  · exact (standing.rooted.remove_achieves standing.sound key budget).imp (fun _ _ _ => trivial)
      fun _ => Or.imp_right (And.imp_right high)
  · exact (standing.rooted.insert_achieves standing.sound small budget).imp
      (fun _ _ _ => trivial) fun _ => Or.imp_right And.left

end Shapes

section ShapesRun

attribute [local instance] Blake3.linked

/-- The shapes after a run over keys of different branches. -/
theorem nodes_wellShaped_separateKeys
    : ∃ root last,
        runOps 5 separateKeys none fresh = .ok root last
        ∧ ∀ top hash, root = some top → Below last.view top hash
          → ∃ node, nodeAt last.view hash = some node ∧ WellShaped node := by
  have returned : (Run.valueOf (runOps 5 separateKeys none fresh)).isSome := by decide +kernel
  have clashFree : ClashFreeWithin 5 separateKeys := by decide +kernel
  obtain ⟨root, last, ran⟩ := Run.exists_eq_ok returned
  rw [ClashFreeWithin, ran] at clashFree
  exact ⟨root, last, ran, (nodes_wellShaped fresh_mapped.sound separateKeys_fits ran
    ⟨clashFree, fun _ _ => trivial⟩).1⟩

end ShapesRun

end Epochs.PersistentHamt
