import Epochs.Hamt.Updates

/-! Runs of insertions and removals from the empty tree. As long as no insertion skips a
level, the root after any run stands for a well-placed trie, whose lookups are those of the
finite map the run writes.
-/

namespace Epochs.PersistentHamt

open Lib Run Traced

/-- One mutation of a tree. -/
inductive HamtOp where
  | insert (key value : Bytes)
  | remove (key : Bytes)
  deriving DecidableEq

def HamtOp.Fits : HamtOp → Prop
  | insert key value => (HamtNode.leaf key value).Fits
  | remove _ => True

/-- What a key holds after the operation, given what it held before. -/
def HamtOp.write (key : Bytes) (before : Option Bytes) : HamtOp → Option Bytes
  | insert target value => if key = target then some value else before
  | remove target => if key = target then none else before

/-- The value last written for a key by a run from the empty tree. -/
def lastWritten (ops : List HamtOp) (key : Bytes) : Option Bytes :=
  ops.foldl (HamtOp.write key) none

section Operations

variable {σ : Type} [Blake3] [CasBackend σ]

def HamtOp.apply (fuel : Nat) (root : Option Hash)
    : HamtOp → Run EpochsError (Traced σ) (Option Hash)
  | insert key value => do
    let newRoot ← PersistentHamt.insert fuel root key value
    pure (some newRoot)
  | remove key => PersistentHamt.remove fuel root key

def runOps (fuel : Nat) : List HamtOp → Option Hash → Run EpochsError (Traced σ) (Option Hash)
  | [], root => pure root
  | op :: rest, root => do
    let next ← op.apply fuel root
    runOps fuel rest next

theorem runOps_append (fuel : Nat) (first second : List HamtOp) (root : Option Hash)
    : (runOps fuel (first ++ second) root : Run EpochsError (Traced σ) (Option Hash))
      = runOps fuel first root >>= runOps fuel second := by
  induction first generalizing root with
  | nil => simp [runOps]
  | cons op rest ih => simp [runOps, ih]

theorem HamtOp.apply_within {relation : Traced σ → Traced σ → Prop} (frame : Frame relation)
    (reads : ∀ hash, Within relation
      (getRecord hash : Run EpochsError (Traced σ) (RecordType × Bytes)))
    (writes : ∀ node : HamtNode, Within relation
      (put node.recordType node.encode : Run EpochsError (Traced σ) Hash))
    (fuel : Nat) (root : Option Hash) (op : HamtOp)
    : Within relation (op.apply fuel root : Run EpochsError (Traced σ) (Option Hash)) := by
  cases op with
  | insert key value =>
    exact .bind frame (insert_within frame reads writes fuel root key value)
      fun _ => .pure frame _
  | remove key => exact remove_within frame reads writes fuel root key

theorem runOps_within {relation : Traced σ → Traced σ → Prop} (frame : Frame relation)
    (reads : ∀ hash, Within relation
      (getRecord hash : Run EpochsError (Traced σ) (RecordType × Bytes)))
    (writes : ∀ node : HamtNode, Within relation
      (put node.recordType node.encode : Run EpochsError (Traced σ) Hash))
    (fuel : Nat) (ops : List HamtOp) (root : Option Hash)
    : Within relation (runOps fuel ops root : Run EpochsError (Traced σ) (Option Hash)) := by
  induction ops generalizing root with
  | nil => exact .pure frame _
  | cons op rest ih =>
    exact .bind frame (HamtOp.apply_within frame reads writes fuel root op) ih

theorem HamtOp.apply_more (fuel : Nat) (root : Option Hash) (op : HamtOp)
    : Follows Eq (op.apply fuel root : Run EpochsError (Traced σ) _)
        (op.apply (fuel + 1) root) := by
  cases op with
  | insert key value =>
    exact .bind ((insertInternal_more fuel).1 _ _ _ _ _) fun _ => .same _
  | remove key =>
    cases root with
    | none => exact .same _
    | some hash => exact removeInternal_more fuel hash key _ 0

/-- A run that returns returns the same with any larger budget. -/
theorem runOps_of_le {low high : Nat} (le : low ≤ high) {ops : List HamtOp} {root found : Option Hash}
    {traced last : Traced σ} (ran : runOps low ops root traced = .ok found last)
    : runOps high ops root traced = .ok found last := by
  have more (fuel : Nat) (ops : List HamtOp) (root : Option Hash)
      : Follows Eq (runOps fuel ops root : Run EpochsError (Traced σ) _)
          (runOps (fuel + 1) ops root) := by
    induction ops generalizing root with
    | nil => exact .same _
    | cons op rest ih => exact .bind (op.apply_more fuel root) ih
  induction le with
  | refl => exact ran
  | step _ ih =>
    obtain ⟨_, again, rfl⟩ := more _ ops root _ _ _ _ rfl ih
    exact again

end Operations

-- What operations do to tries

def HamtOp.Updates [Blake3] (before after : Trie) : HamtOp → Prop
  | insert key value => HashTrie.Inserted chunk key value 0 before after
  | remove key => HashTrie.Removed chunk key 0 before after

def Updated [Blake3] : List HamtOp → Trie → Trie → Prop
  | [], before, after => after = before
  | op :: rest, before, after => ∃ middle, op.Updates before middle ∧ Updated rest middle after

-- Skipped levels in a stored tree

section Skips

def nodeAt (view : View) (hash : Hash) : Option HamtNode :=
  (view hash).bind fun (recordType, payload) => (HamtNode.decode recordType payload).toOption

variable {view : View}

theorem nodeAt_of_held {hash : Hash} (node : HamtNode) (fits : node.Fits)
    (held : view hash = some (node.recordType, node.encode))
    : nodeAt view hash = some node := by
  simp [nodeAt, held, HamtNode.decode_encode fits, Except.toOption]

variable [Blake3]

/-- Descending along a key from a node of this depth ends at a leaf of another key whose
chunk at the leaf's depth is the same.
-/
inductive MeetsEqualChunk (view : View) (key : Bytes) : Nat → Hash → Prop
  | leaf {depth : Nat} {hash : Hash} {found value : Bytes}
    (node : nodeAt view hash = some (.leaf found value)) (different : found ≠ key)
    (agree : chunk found depth = chunk key depth)
    : MeetsEqualChunk view key depth hash
  | bitmap {depth : Nat} {hash child : Hash} {bits : BitVec 32} {children : List Hash}
    (node : nodeAt view hash = some (.bitmap bits children))
    (branch : childAt bits children (chunk key depth) = some child)
    (inside : MeetsEqualChunk view key (depth + 1) child)
    : MeetsEqualChunk view key depth hash

/-- Inserting the key under a root would skip a level of the tree. -/
def SkipsLevel (view : View) (root : Option Hash) (key : Bytes) : Prop :=
  ∃ hash, root = some hash ∧ MeetsEqualChunk view key 0 hash

/-- On a stored tree, the two notions of a skipped level agree. -/
theorem Stored.meetsEqualChunk_iff {hash : Hash} {trie : Trie}
    (stored : Stored view hash trie) (key : Bytes) (depth : Nat)
    : MeetsEqualChunk view key depth hash ↔ trie.SkipsLevel chunk key depth := by
  induction stored generalizing depth with
  | leaf hash found value fits held =>
    have node := nodeAt_of_held (.leaf found value) fits held
    constructor
    · intro meets
      cases meets with
      | leaf other different agree =>
        rw [node] at other
        cases other
        exact ⟨different, agree⟩
      | bitmap other => simp [node] at other
    · rintro ⟨different, agree⟩
      exact .leaf node different agree
  | node hash bitmap children slots held counted nonempty absent present ih =>
    have node := nodeAt_of_held (.bitmap bitmap children) counted.fits held
    constructor
    · intro meets
      cases meets with
      | leaf other => simp [node] at other
      | bitmap other branch inside =>
        rw [node] at other
        cases other
        exact (ih _ _ branch (depth + 1)).mp inside
    · intro skips
      simp only [HashTrie.SkipsLevel] at skips
      cases found : childAt bitmap children (chunk key depth) with
      | none =>
        rw [absent _ found] at skips
        exact False.elim skips
      | some child => exact .bitmap node found ((ih _ _ found (depth + 1)).mpr skips)

theorem Rooted.skipsLevel_iff {root : Option Hash} {trie : Trie}
    (rooted : Rooted view root trie) (key : Bytes)
    : SkipsLevel view root key ↔ trie.SkipsLevel chunk key 0 := by
  cases root with
  | none =>
    cases rooted
    simp [SkipsLevel, HashTrie.SkipsLevel]
  | some hash => simpa [SkipsLevel] using Stored.meetsEqualChunk_iff rooted key 0

end Skips

-- Steps and runs without a skipped level

section Mapped

variable {σ : Type} [Blake3] [CasBackend σ] [LawfulCas σ] {traced : Traced σ}

structure Mapped (traced : Traced σ) (root : Option Hash) (trie : Trie) (bound : Nat)
    : Prop where
  sound : traced.Sound
  rooted : Rooted traced.view root trie
  placed : trie.WellPlaced chunk 0
  height : trie.HeightLe bound

theorem HamtOp.apply_evolves (fuel : Nat) (root : Option Hash) (op : HamtOp)
    : Within (@Evolves σ _ _ _) (op.apply fuel root) :=
  op.apply_within evolves_frame getRecord_evolves
    (fun _ => put_evolves _ _) fuel root

omit [LawfulCas σ] in
theorem runOps_grows (fuel : Nat) (ops : List HamtOp) (root : Option Hash)
    : Within (@Grows σ) (runOps fuel ops root) :=
  runOps_within grows_frame getRecord_grows
    (fun _ => put_grows _ _) fuel ops root

/-- An operation that skips no level updates the map the root stands for. -/
theorem Mapped.apply_achieves {root : Option Hash} {trie : Trie} {bound fuel : Nat}
    (mapped : Mapped traced root trie bound) {op : HamtOp} (fits : op.Fits)
    (direct : ∀ key value, op = .insert key value → ¬ SkipsLevel traced.view root key)
    (enough : bound < fuel)
    : Achieves
        (fun newRoot next => ∃ after,
          Mapped next newRoot after (bound + 1)
          ∧ ∀ key, after.get chunk key 0 = op.write key (trie.get chunk key 0))
        (Refused σ)
        (op.apply fuel root traced) := by
  have low : trie.HeightLe (fuel - 1) := mapped.height.mono (by omega)
  cases op with
  | insert key value =>
      have stays := (mapped.rooted.skipsLevel_iff key).not.mp (direct key value rfl)
      refine .bind mapped.sound
        (insert_within evolves_frame getRecord_evolves
    (fun _ => put_evolves _ _) _ _ _ _)
        (fun _ => .pure grows_frame _)
        ((mapped.rooted.insert_achieves mapped.sound fits fuel).imp (fun _ _ => id) ?_) ?_
      · rintro fault (refused | ⟨-, rfl | skips | high⟩)
        · exact refused
        · omega
        · exact absurd skips stays
        · exact absurd low high
      · rintro newHash next sound - ⟨after, inserted, stored⟩ _
        exact ⟨after, ⟨sound, stored, inserted.wellPlaced mapped.placed stays,
          inserted.heightLe mapped.height⟩, inserted.get_eq mapped.placed stays⟩
  | remove key =>
      have removes := (mapped.rooted.remove_achieves mapped.sound key fuel).sound
        (remove_within evolves_frame getRecord_evolves
    (fun _ => put_evolves _ _) _ _ _)
        mapped.sound
      refine removes.imp ?_ ?_
      · rintro newRoot next ⟨sound, -, after, removed, rooted⟩
        exact ⟨after, ⟨sound, rooted, removed.wellPlaced mapped.placed,
          (removed.heightLe mapped.height).mono (Nat.le_succ _)⟩, removed.get_eq⟩
      · rintro fault (refused | ⟨-, high⟩)
        · exact refused
        · exact absurd (mapped.height.mono (Nat.le_of_lt enough)) high

/-- A run that skips no level writes the finite map its operations describe. -/
theorem Mapped.runOps_achieves {root : Option Hash} {trie : Trie} {bound fuel : Nat}
    (mapped : Mapped traced root trie bound) {ops : List HamtOp} (fits : ∀ op ∈ ops, op.Fits)
    (direct : ∀ earlier key value later, ops = earlier ++ .insert key value :: later
      → ∀ middleRoot middle, runOps fuel earlier root traced = .ok middleRoot middle
        → ¬ SkipsLevel middle.view middleRoot key)
    (enough : bound + ops.length < fuel)
    : Achieves
        (fun newRoot next => ∃ after,
          Mapped next newRoot after (bound + ops.length)
          ∧ ∀ key, after.get chunk key 0 = ops.foldl (HamtOp.write key) (trie.get chunk key 0))
        (Refused σ)
        (runOps fuel ops root traced) := by
  induction ops generalizing traced root trie bound with
  | nil =>
    intro _
    exact ⟨trie, mapped, fun _ => rfl⟩
  | cons op rest ih =>
    rw [List.length_cons] at enough
    have first := mapped.apply_achieves (fits op (by simp))
      (fun key value is => direct [] key value rest (by simp [is]) root traced rfl)
      (by omega : bound < fuel)
    refine .bind_ran mapped.sound (op.apply_evolves fuel root) (runOps_grows fuel rest) first ?_
    rintro nextRoot next ran - - ⟨after, nextMapped, written⟩
    have later := ih nextMapped (fun op member => fits op (by simp [member]))
      (fun earlier key value later split middleRoot middle reached =>
        direct (op :: earlier) key value later (by simp [split]) middleRoot middle
          (by rw [runOps, bind_of_ok ran, reached]))
      (by omega)
    refine later.imp ?_ fun _ => id
    rintro newRoot last ⟨final, finalMapped, finalWritten⟩
    have bounds : bound + 1 + rest.length = bound + (op :: rest).length := by
      rw [List.length_cons]
      omega
    exact ⟨final, bounds ▸ finalMapped, fun key => by rw [finalWritten, written, List.foldl_cons]⟩

end Mapped
end Epochs.PersistentHamt
