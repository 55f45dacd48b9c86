import Epochs.Hamt.Shapes

/-! Roots as functions of maps. A stored tree has the root hash its trie determines, and the
trie of a run of insertions that skips no level is the one trie for the map it writes in which
every node holds two keys. A run that skips a level leaves an entry off its path for good, so
its root is another one.
-/

namespace Epochs.PersistentHamt

open Lib Run

-- Tries and root hashes

section Roots

def Agree (first second : View) : Prop :=
  ∀ hash record other, first hash = some record → second hash = some other → record = other

theorem encode_injective {node other : HamtNode} (fits : node.Fits) (otherFits : other.Fits)
    (same : (node.recordType, node.encode) = (other.recordType, other.encode))
    : node = other := by
  have decoded := HamtNode.decode_encode fits
  rw [(Prod.mk.inj same).1, (Prod.mk.inj same).2, HamtNode.decode_encode otherFits] at decoded
  exact (Except.ok.inj decoded).symm

variable {view first second : View} {hash other : Hash} {trie otherTrie : Trie}

/-- A hash stands for one trie, in stores that agree. -/
theorem Stored.trie_eq (stored : Stored first hash trie) (also : Stored second hash otherTrie)
    (agree : Agree first second)
    : trie = otherTrie := by
  induction stored generalizing otherTrie with
  | leaf hash key value fits held =>
    cases also with
    | leaf _ found old otherFits otherHeld =>
      have same := encode_injective fits otherFits (agree _ _ _ held otherHeld)
      cases same
      rfl
    | node _ bitmap children slots otherHeld => simpa using agree _ _ _ held otherHeld
  | node hash bitmap children slots held counted nonempty absent present ih =>
    cases also with
    | leaf _ found old otherFits otherHeld => simpa using agree _ _ _ held otherHeld
    | node _ bits kids others otherHeld otherCounted _ otherAbsent otherPresent =>
      have same : HamtNode.bitmap bitmap children = .bitmap bits kids :=
        encode_injective counted.fits otherCounted.fits (agree _ _ _ held otherHeld)
      cases same
      congr 1
      funext branch
      cases found : childAt bitmap children branch with
      | none => rw [absent branch found, otherAbsent branch found]
      | some child => exact ih branch child found (otherPresent branch child found)

theorem Rooted.trie_eq {root : Option Hash} (rooted : Rooted first root trie)
    (also : Rooted second root otherTrie) (agree : Agree first second)
    : trie = otherTrie := by
  cases root with
  | none => exact Eq.trans rooted (Eq.symm also)
  | some hash => exact Stored.trie_eq rooted also agree

end Roots

-- Runs of insertions

def InsertsOnly (ops : List HamtOp) : Prop :=
  ∀ op ∈ ops, ∃ key value, op = .insert key value

section Runs

variable [Blake3]

variable {ops : List HamtOp}

theorem Updated.branching {before after : Trie}
    (updated : Updated ops before after) (inserts : InsertsOnly ops)
    (branching : before.Branching)
    : after.Branching := by
  induction ops generalizing before with
  | nil => exact updated ▸ branching
  | cons op rest ih =>
    obtain ⟨middle, updates, later⟩ := updated
    obtain ⟨key, value, rfl⟩ := inserts op (by simp)
    exact ih later (fun other member => inserts other (by simp [member]))
      (HashTrie.Inserted.branching updates branching)

/-- A run that ends in a well-placed trie started in one. -/
theorem Updated.of_wellPlaced {before after : Trie}
    (updated : Updated ops before after) (inserts : InsertsOnly ops)
    (placed : after.WellPlaced chunk 0)
    : before.WellPlaced chunk 0 := by
  induction ops generalizing before with
  | nil => exact updated ▸ placed
  | cons op rest ih =>
    obtain ⟨middle, updates, later⟩ := updated
    obtain ⟨key, value, rfl⟩ := inserts op (by simp)
    have middlePlaced := ih later fun other member => inserts other (by simp [member])
    exact (HashTrie.Inserted.of_wellPlaced updates middlePlaced).1

def SameRoot (first second : List HamtOp) : Prop :=
  ∃ budget, ∀ fuel, budget ≤ fuel → ∃ root last otherLast,
    runOps fuel first none fresh = .ok root last
    ∧ runOps fuel second none fresh = .ok root otherLast

/-- The objects handed to the store during both runs do not clash. -/
def RunsClashFree (first second : List HamtOp) : Prop :=
  ∃ budget, ∀ fuel, budget ≤ fuel → Traced.ClashFree
    ((Run.stateOf (runOps fuel first none fresh)).handed
      ++ (Run.stateOf (runOps fuel second none fresh)).handed)

theorem clashFree_left {first second : List (RecordType × Bytes)}
    (clashFree : Traced.ClashFree (first ++ second))
    : Traced.ClashFree first :=
  fun one inOne two inTwo =>
    clashFree one (List.mem_append_left _ inOne) two (List.mem_append_left _ inTwo)

theorem clashFree_comm {first second : List (RecordType × Bytes)}
    (clashFree : Traced.ClashFree (first ++ second))
    : Traced.ClashFree (second ++ first) :=
  fun one inOne two inTwo =>
    clashFree one (List.mem_append.mpr (List.mem_append.mp inOne).symm) two
      (List.mem_append.mpr (List.mem_append.mp inTwo).symm)

variable {first second : List HamtOp}

theorem RunsClashFree.symm (clashFree : RunsClashFree first second)
    : RunsClashFree second first :=
  clashFree.imp fun _ large fuel enough => clashFree_comm (large fuel enough)

theorem SameRoot.symm (same : SameRoot first second)
    : SameRoot second first := by
  obtain ⟨budget, returns⟩ := same
  refine ⟨budget, fun fuel enough => ?_⟩
  obtain ⟨root, last, otherLast, ran, otherRan⟩ := returns fuel enough
  exact ⟨root, otherLast, last, otherRan, ran⟩

/-- Sound stores whose objects do not clash agree. -/
theorem agree_of_clashFree {first second : Traced MemCas} (sound : first.Sound)
    (otherSound : second.Sound) (clashFree : Traced.ClashFree (first.handed ++ second.handed))
    : Agree first.view second.view := by
  intro hash record other held otherHeld
  refine clashFree record (List.mem_append_left _ (sound.handed _ _ held)) other
    (List.mem_append_right _ (otherSound.handed _ _ otherHeld)) ?_
  rw [sound.keyed _ _ held, otherSound.keyed _ _ otherHeld]

/-- The trie of a run of insertions that skips no level, with two keys in every node. -/
theorem NeverSkips.run_branching (never : NeverSkips ops)
    (inserts : InsertsOnly ops) (fits : ∀ op ∈ ops, op.Fits) {fuel : Nat}
    (clashFree : ClashFreeWithin fuel ops) (enough : ops.length < fuel)
    : ∃ root last trie, runOps fuel ops none fresh = .ok root last
        ∧ Mapped last root trie ops.length
        ∧ trie.Branching
        ∧ ∀ key, trie.get chunk key 0 = lastWritten ops key := by
  obtain ⟨root, last, trie, ran, mapped, written⟩ := never.run fits clashFree enough
  rw [ClashFreeWithin, ran] at clashFree
  obtain ⟨standing, updated, stands⟩ := standing_of_runOps fresh_mapped.sound fits ran
    ⟨clashFree, fun _ _ => trivial⟩
  have agree : Agree last.view last.view :=
    fun hash record other held also => Option.some.inj (held.symm.trans also)
  obtain rfl := stands.rooted.trie_eq mapped.rooted agree
  exact ⟨root, last, standing, ran, mapped, updated.branching inserts trivial, written⟩

/-- Two runs of insertions that skip no level and write the same map return the same root. -/
theorem NeverSkips.sameRoot (never : NeverSkips first)
    (otherNever : NeverSkips second) (inserts : InsertsOnly first)
    (otherInserts : InsertsOnly second) (fits : ∀ op ∈ first, op.Fits)
    (otherFits : ∀ op ∈ second, op.Fits) (clashFree : RunsClashFree first second)
    (same : ∀ key, lastWritten first key = lastWritten second key)
    : SameRoot first second := by
  obtain ⟨budget, clashFree⟩ := clashFree
  refine ⟨max budget (max first.length second.length + 1), fun fuel enough => ?_⟩
  have both := clashFree fuel (by omega)
  obtain ⟨root, last, trie, ran, mapped, branching, written⟩ := never.run_branching inserts fits
    (clashFree_left both) (by omega)
  obtain ⟨otherRoot, otherLast, otherTrie, otherRan, otherMapped, otherBranching, otherWritten⟩ :=
    otherNever.run_branching otherInserts otherFits (clashFree_left (clashFree_comm both)) (by omega)
  have tries : trie = otherTrie := by
    refine HashTrie.eq_of_mem mapped.placed otherMapped.placed branching otherBranching ?_
    intro key value
    rw [← HashTrie.get_eq_some chunk mapped.placed, ← HashTrie.get_eq_some chunk otherMapped.placed,
      written, otherWritten, same]
  obtain rfl := mapped.rooted.root_eq (tries ▸ otherMapped.rooted) mapped.sound.keyed
    otherMapped.sound.keyed
  exact ⟨root, last, otherLast, ran, otherRan⟩

/-- A run of insertions that returns the root of one that skips no level skips none itself:
its trie is well placed at the end, and so at every insertion.
-/
theorem SameRoot.neverSkips (sameRoot : SameRoot first second)
    (otherNever : NeverSkips second) (inserts : InsertsOnly first)
    (fits : ∀ op ∈ first, op.Fits) (otherFits : ∀ op ∈ second, op.Fits)
    (clashFree : RunsClashFree first second)
    : NeverSkips first := by
  intro earlier key value later split fuel root middle ran
  obtain ⟨budget, returns⟩ := sameRoot
  obtain ⟨budget', clashFree⟩ := clashFree
  let large := max (max fuel budget) (max budget' (second.length + 1))
  have both := clashFree large (by omega)
  have ranLarge := runOps_of_le (by omega : fuel ≤ large) ran
  obtain ⟨finalRoot, last, otherLast, ranAll, otherRan⟩ := returns large (by omega)
  obtain ⟨_, _, otherTrie, again, mapped, -⟩ := otherNever.run otherFits
    (clashFree_left (clashFree_comm both)) (by omega : second.length < large)
  rw [otherRan] at again
  cases again
  rw [ranAll, otherRan] at both
  rw [split] at fits inserts ranAll
  rw [runOps_append, bind_of_ok ranLarge] at ranAll
  have admissible : Traced.Admissible MemCas last.handed :=
    ⟨clashFree_left both, fun _ _ => trivial⟩
  have grows : Traced.Grows middle last := by
    have within := runOps_grows large (.insert key value :: later) root middle
    rwa [ranAll] at within
  obtain ⟨trie, -, standing⟩ := standing_of_runOps fresh_mapped.sound (fits_earlier fits) ranLarge
    (admissible.of_isPrefix grows)
  have achieves := standing.runOps_achieves
    (fun op member => fits op (List.mem_append_right _ member)) large
  rw [ranAll] at achieves
  obtain ⟨after, ⟨next, inserted, updated⟩, stands⟩ := achieves admissible
  obtain rfl := stands.rooted.trie_eq mapped.rooted
    (agree_of_clashFree stands.sound mapped.sound both)
  have placed := updated.of_wellPlaced (fun op member => inserts op (by simp [member])) mapped.placed
  exact (standing.rooted.skipsLevel_iff key).not.mpr
    (HashTrie.Inserted.of_wellPlaced inserted placed).2

/-- Two runs of insertions that write the same map, of which at least one skips no level,
return the same root exactly if neither skips a level.
-/
theorem sameRoot_iff_neverSkip {first second : List HamtOp} (inserts : InsertsOnly first)
    (otherInserts : InsertsOnly second) (fits : ∀ op ∈ first, op.Fits)
    (otherFits : ∀ op ∈ second, op.Fits) (clashFree : RunsClashFree first second)
    (same : ∀ key, lastWritten first key = lastWritten second key)
    (one : NeverSkips first ∨ NeverSkips second)
    : SameRoot first second ↔ NeverSkips first ∧ NeverSkips second := by
  constructor
  · intro sameRoot
    rcases one with never | never
    · exact ⟨never, sameRoot.symm.neverSkips never otherInserts otherFits fits clashFree.symm⟩
    · exact ⟨sameRoot.neverSkips never inserts fits otherFits clashFree, never⟩
  · rintro ⟨never, otherNever⟩
    exact never.sameRoot otherNever inserts otherInserts fits otherFits clashFree same

/-- Two insertions of keys with different first chunks skip no level. -/
theorem neverSkips_pair {key value other old : Bytes} (fits : (HamtNode.leaf key value).Fits)
    (clashFree : RunClashFree [.insert key value]) (apart : chunk key 0 ≠ chunk other 0)
    : NeverSkips [.insert key value, .insert other old] := by
  intro earlier target written later split fuel root middle ran
  rcases earlier with _ | ⟨first, _ | ⟨second, rest⟩⟩
  · cases ran
    rintro ⟨hash, found, -⟩
    cases found
  · simp only [List.cons_append, List.nil_append, List.cons.injEq, HamtOp.insert.injEq] at split
    obtain ⟨rfl, ⟨rfl, rfl⟩, -⟩ := split
    obtain ⟨budget, clashFree⟩ := clashFree
    have large := clashFree (max fuel budget) (by omega)
    rw [ClashFreeWithin, runOps_of_le (by omega : fuel ≤ max fuel budget) ran] at large
    obtain ⟨trie, ⟨_, inserted, rfl⟩, stands⟩ := standing_of_runOps fresh_mapped.sound
      (by simpa [HamtOp.Fits] using fits) ran ⟨large, fun _ _ => trivial⟩
    cases inserted
    exact (stands.rooted.skipsLevel_iff other).not.mpr fun skips => apart skips.2
  · simp at split

/-- Runs that return clash with larger budgets only if they do with their own, and not at all
if one does not and the other one hands over the same objects.
-/
theorem runsClashFree_of_isSome (fuel : Nat)
    (returned : (valueOf (runOps fuel first none fresh)).isSome)
    (otherReturned : (valueOf (runOps fuel second none fresh)).isSome)
    (clashFree : ClashFreeWithin fuel first)
    (subset : ∀ object ∈ (stateOf (runOps fuel second none fresh)).handed,
      object ∈ (stateOf (runOps fuel first none fresh)).handed)
    : RunsClashFree first second := by
  obtain ⟨_, _, ran⟩ := exists_eq_ok returned
  obtain ⟨_, _, otherRan⟩ := exists_eq_ok otherReturned
  rw [ClashFreeWithin, ran] at clashFree
  rw [ran, otherRan] at subset
  refine ⟨fuel, fun larger le => ?_⟩
  rw [runOps_of_le le ran, runOps_of_le le otherRan]
  intro one inOne two inTwo
  exact clashFree one ((List.mem_append.mp inOne).elim id (subset one)) two
    ((List.mem_append.mp inTwo).elim id (subset two))

/-- Runs that return different roots with one budget do so with all larger ones. -/
theorem not_sameRoot_of_valueOf (fuel : Nat)
    (returned : (valueOf (runOps fuel first none fresh)).isSome)
    (otherReturned : (valueOf (runOps fuel second none fresh)).isSome)
    (different : valueOf (runOps fuel first none fresh)
      ≠ valueOf (runOps fuel second none fresh))
    : ¬ SameRoot first second := by
  rintro ⟨budget, returns⟩
  obtain ⟨root, _, ran⟩ := exists_eq_ok returned
  obtain ⟨otherRoot, _, otherRan⟩ := exists_eq_ok otherReturned
  rw [ran, otherRan] at different
  obtain ⟨found, _, _, again, otherAgain⟩ := returns (max fuel budget) (by omega)
  have le : fuel ≤ max fuel budget := by omega
  rw [runOps_of_le le ran] at again
  rw [runOps_of_le le otherRan] at otherAgain
  cases again
  cases otherAgain
  exact different rfl

end Runs

-- Two orders of two keys, and two orders of three

section Orders

attribute [local instance] Blake3.linked

theorem sameRoot_iff_neverSkip_separateKeys
    : SameRoot [.insert [0x61] [1], .insert [0x62] [2]] [.insert [0x62] [2], .insert [0x61] [1]] := by
  have never : NeverSkips [.insert [0x61] [1], .insert [0x62] [2]] :=
    neverSkips_pair (by simp [HamtNode.Fits]) (runClashFree_of_isSome 5 (by decide +kernel) (by decide +kernel))
      (by decide +kernel)
  have otherNever : NeverSkips [.insert [0x62] [2], .insert [0x61] [1]] :=
    neverSkips_pair (by simp [HamtNode.Fits]) (runClashFree_of_isSome 5 (by decide +kernel) (by decide +kernel))
      (by decide +kernel)
  refine (sameRoot_iff_neverSkip (by simp [InsertsOnly]) (by simp [InsertsOnly]) ?_ ?_
    (runsClashFree_of_isSome 5 (by decide +kernel) (by decide +kernel) (by decide +kernel)
      (by decide +kernel)) ?_ (.inl never)).mpr ⟨never, otherNever⟩
  · simp [HamtOp.Fits, HamtNode.Fits]
  · simp [HamtOp.Fits, HamtNode.Fits]
  · intro key
    simp only [lastWritten, List.foldl_cons, List.foldl_nil, HamtOp.write]
    by_cases first : key = [0x61]
    · simp [first]
    · simp [first]

def sharedFirst : List HamtOp := [.insert [0x62] [1], .insert [0x71] [2], .insert [0x61] [3]]

def sharedLast : List HamtOp := [.insert [0x61] [3], .insert [0x62] [1], .insert [0x71] [2]]

/-- Two orders of inserting three keys return different roots. -/
theorem root_depends_on_order
    : InsertsOnly sharedFirst ∧ InsertsOnly sharedLast
      ∧ (∀ key, lastWritten sharedFirst key = lastWritten sharedLast key)
      ∧ ¬ SameRoot sharedFirst sharedLast := by
  refine ⟨by simp [InsertsOnly, sharedFirst], by simp [InsertsOnly, sharedLast], fun key => ?_, ?_⟩
  · simp only [sharedFirst, sharedLast, lastWritten, List.foldl_cons, List.foldl_nil,
      HamtOp.write]
    by_cases third : key = [0x61]
    · simp [third]
    · simp [third]
  · exact not_sameRoot_of_valueOf 6 (by decide +kernel) (by decide +kernel) (by decide +kernel)

end Orders
end Epochs.PersistentHamt
