import Epochs.Core.Blake3
import Epochs.Hamt.Runs

/-! The finite-map laws of the tree, over runs of insertions and removals from an empty
in-memory store. They hold exactly as long as no insertion skips a level: expanding a leaf
whose chunk agrees with the new key's at the leaf's own depth returns the split of a deeper
level in its place, so that one of the two keys is no longer on its path.
-/

namespace Epochs.PersistentHamt

open Lib Run

def fresh : Traced MemCas := ⟨MemCas.new, []⟩

section Laws

variable [Blake3]

def Reads (fuel : Nat) (root : Option Hash) (state : Traced MemCas) (key : Bytes)
    (found : Option Bytes) : Prop :=
  ∃ after, get fuel root key state = .ok found after

/-- After the operations, inserting the key returns a root under which the key reads the
value and every other key what it read before.
-/
def InsertLaw (ops : List HamtOp) (key value : Bytes) : Prop :=
  ∃ budget, ∀ fuel, budget ≤ fuel → ∃ root middle newRoot last,
    runOps fuel ops none fresh = .ok root middle
    ∧ insert fuel root key value middle = .ok newRoot last
    ∧ Reads fuel (some newRoot) last key (some value)
    ∧ ∀ other, other ≠ key → ∃ found,
        Reads fuel root middle other found ∧ Reads fuel (some newRoot) last other found

/-- No insertion of the run reaches, in the tree it is applied to, a leaf of another key whose
hash has the same chunk at the depth of that leaf.
-/
def NeverSkips (ops : List HamtOp) : Prop :=
  ∀ earlier key value later, ops = earlier ++ .insert key value :: later
    → ∀ fuel root middle, runOps fuel earlier none fresh = .ok root middle
      → ¬ SkipsLevel middle.view root key

/-- The objects handed to the store by a run of this budget do not clash. -/
def ClashFreeWithin (fuel : Nat) (ops : List HamtOp) : Prop :=
  Traced.ClashFree (Run.stateOf (runOps fuel ops none fresh)).handed

instance (fuel : Nat) (ops : List HamtOp) : Decidable (ClashFreeWithin fuel ops) :=
  inferInstanceAs (Decidable (Traced.ClashFree _))

/-- The objects handed to the store during the run do not clash. -/
def RunClashFree (ops : List HamtOp) : Prop :=
  ∃ budget, ∀ fuel, budget ≤ fuel → ClashFreeWithin fuel ops

-- Runs without a skipped level

theorem fresh_mapped : Mapped fresh none .empty 0 where
  sound := ⟨trivial, trivial, fun _ _ found => by simp [fresh, Traced.view, LawfulCas.view] at found,
    fun _ _ found => by simp [fresh, Traced.view, LawfulCas.view] at found,
    ⟨fun _ member => by simp [fresh] at member, fun _ _ => trivial⟩⟩
  rooted := rfl
  placed := trivial
  height := trivial

/-- In memory, a run whose objects do not clash ends as its postcondition says. -/
theorem ok_of_achieves {α : Type} {post : α → Traced MemCas → Prop}
    {result : EStateM.Result (Fault EpochsError) (Traced MemCas) α}
    (achieves : Traced.Achieves post (Traced.Refused MemCas) result)
    (clashFree : Traced.ClashFree (stateOf result).handed)
    : ∃ value last, result = .ok value last ∧ post value last := by
  have meets := achieves ⟨clashFree, fun _ _ => trivial⟩
  cases result with
  | ok value last => exact ⟨value, last, rfl, meets⟩
  | error fault last => exact False.elim meets.1

variable {first second : List HamtOp}

omit [Blake3] in
theorem fits_earlier (fits : ∀ op ∈ first ++ second, op.Fits)
    : ∀ op ∈ first, op.Fits :=
  fun op member => fits op (List.mem_append_left _ member)

theorem NeverSkips.earlier (never : NeverSkips (first ++ second))
    : NeverSkips first :=
  fun earlier key value later split =>
    never earlier key value (later ++ second) (by simp [split])

variable {fuel : Nat}

theorem ClashFreeWithin.earlier
    (clashFree : ClashFreeWithin fuel (first ++ second))
    : ClashFreeWithin fuel first := by
  intro one inOne two inTwo
  have grows : Traced.Grows (stateOf (runOps fuel first none fresh))
      (stateOf (runOps fuel (first ++ second) none fresh)) := by
    rw [runOps_append, bind_apply]
    cases runOps fuel first none fresh with
    | ok root middle => exact runOps_grows fuel second root middle
    | error fault middle => exact Traced.grows_frame.refl middle
  exact clashFree one (grows.subset inOne) two (grows.subset inTwo)

theorem RunClashFree.earlier
    (clashFree : RunClashFree (first ++ second))
    : RunClashFree first :=
  clashFree.imp fun _ large fuel enough => (large fuel enough).earlier

variable {ops : List HamtOp}

/-- A run that returns clashes with any larger budget only if it does with its own. -/
theorem runClashFree_of_isSome (fuel : Nat)
    (returned : (valueOf (runOps fuel ops none fresh)).isSome)
    (clashFree : ClashFreeWithin fuel ops)
    : RunClashFree ops := by
  obtain ⟨root, returned⟩ := Option.isSome_iff_exists.mp returned
  refine ⟨fuel, fun larger le => ?_⟩
  have ran := eq_ok_of_valueOf returned
  rw [ClashFreeWithin, runOps_of_le le ran]
  exact clashFree

/-- Without a skipped level a run returns a root that stands for the map it wrote. -/
theorem NeverSkips.run (never : NeverSkips ops)
    (fits : ∀ op ∈ ops, op.Fits) (clashFree : ClashFreeWithin fuel ops)
    (enough : ops.length < fuel)
    : ∃ root last trie,
        runOps fuel ops none fresh = .ok root last
        ∧ Mapped last root trie ops.length
        ∧ ∀ key, trie.get chunk key 0 = lastWritten ops key := by
  have achieves := fresh_mapped.runOps_achieves fits
    (fun earlier key value later split => never earlier key value later split fuel)
    (by simpa using enough)
  obtain ⟨root, last, ran, trie, mapped, written⟩ := ok_of_achieves achieves clashFree
  exact ⟨root, last, trie, ran, by simpa using mapped, written⟩

/-- Under a mapped root every key reads what the trie holds. -/
theorem Mapped.reads {state : Traced MemCas} {root : Option Hash} {trie : Trie} {bound : Nat}
    (mapped : Mapped state root trie bound) (enough : bound ≤ fuel) (key : Bytes)
    : Reads fuel root state key (trie.get chunk key 0) := by
  obtain ⟨after, -, looked⟩ := mapped.rooted.get_eq mapped.sound.valid
    (mapped.height.mono enough) key
  exact ⟨after, looked⟩

/-- Without a skipped level, the last insertion of a run obeys the insert law. -/
theorem NeverSkips.insertLaw {key value : Bytes}
    (never : NeverSkips (ops ++ [.insert key value]))
    (fits : ∀ op ∈ ops ++ [.insert key value], op.Fits)
    (clashFree : RunClashFree (ops ++ [.insert key value]))
    : InsertLaw ops key value := by
  obtain ⟨budget, clashFree⟩ := clashFree
  refine ⟨max budget (ops.length + 2), fun fuel enough => ?_⟩
  have clashFree := clashFree fuel (by omega)
  obtain ⟨root, middle, trie, ran, mapped, written⟩ := never.earlier.run
    (fits_earlier fits) clashFree.earlier (by omega : ops.length < fuel)
  obtain ⟨finalRoot, last, after, ranAll, mappedAfter, writtenAfter⟩ := never.run fits clashFree
    (by simpa using (by omega : ops.length + 1 < fuel))
  rw [runOps_append, bind_of_ok ran] at ranAll
  obtain ⟨_, _, applied, finished⟩ := bind_eq_ok.mp ranAll
  obtain ⟨newRoot, last', inserted, wrapped⟩ := bind_eq_ok.mp applied
  cases wrapped
  cases finished
  have values (other : Bytes)
      : after.get chunk other 0 = if other = key then some value else trie.get chunk other 0 := by
    rw [writtenAfter, written]
    simp [lastWritten, HamtOp.write]
  have reads (other : Bytes) := mappedAfter.reads (by simpa using (by omega : ops.length + 1 ≤ fuel))
    other
  refine ⟨root, middle, newRoot, last, ran, inserted, ?_, fun other different => ?_⟩
  · simpa [values] using reads key
  · exact ⟨_, mapped.reads (by omega) other, by simpa [values, different] using reads other⟩

/-- An insertion that skips a level, after a run that skipped none, still inserts into the
trie, but off the path.
-/
theorem NeverSkips.insert_of_skips {key value : Bytes} (never : NeverSkips ops)
    (fits : ∀ op ∈ ops ++ [.insert key value], op.Fits)
    (clashFree : ClashFreeWithin fuel (ops ++ [.insert key value]))
    (enough : ops.length < fuel) {root : Option Hash} {middle last : Traced MemCas} {newRoot : Hash}
    (ran : runOps fuel ops none fresh = .ok root middle)
    (skips : SkipsLevel middle.view root key)
    (inserted : insert fuel root key value middle = .ok newRoot last)
    : ∃ trie after,
        Mapped middle root trie ops.length
        ∧ trie.SkipsLevel chunk key 0
        ∧ HashTrie.Inserted chunk key value 0 trie after
        ∧ Rooted last.view (some newRoot) after
        ∧ after.HeightLe (ops.length + 1)
        ∧ LawfulCas.Valid last.store := by
  obtain ⟨_, _, trie, again, mapped, -⟩ := never.run (fits_earlier fits)
    clashFree.earlier enough
  rw [ran] at again
  cases again
  rw [ClashFreeWithin, runOps_append, bind_of_ok ran, runOps, bind_apply, HamtOp.apply,
    bind_of_ok inserted] at clashFree
  have achieves := mapped.rooted.insert_achieves mapped.sound
    (fits (.insert key value) (by simp)) fuel
  rw [inserted] at achieves
  obtain ⟨after, updated, stored⟩ := achieves ⟨clashFree, fun _ _ => trivial⟩
  exact ⟨trie, after, mapped, (mapped.rooted.skipsLevel_iff key).mp skips, updated, stored,
    updated.heightLe mapped.height, trivial⟩

/-- To show that a run skips no level, it is enough to look at each insertion after a run that
skipped none. Witness: induction on the length of that run.
-/
theorem neverSkips_of_step
    (step : ∀ earlier key value later, ops = earlier ++ .insert key value :: later
      → NeverSkips earlier → ∀ fuel root middle, runOps fuel earlier none fresh = .ok root middle
        → ¬ SkipsLevel middle.view root key)
    : NeverSkips ops := by
  have prefixes (length : Nat) : ∀ earlier later, earlier.length = length
      → ops = earlier ++ later → NeverSkips earlier := by
    induction length using Nat.strongRecOn with
    | ind length ih =>
      intro earlier later size split first key value rest inner
      refine step first key value (rest ++ later) (by simp [split, inner]) ?_
      refine ih first.length ?_ first (.insert key value :: rest ++ later) rfl (by simp [split, inner])
      rw [← size, inner]
      simp
  exact prefixes ops.length ops [] rfl (by simp)

theorem neverSkips_single (op : HamtOp) : NeverSkips [op] := by
  rintro earlier key value later split fuel root middle ran ⟨hash, found, -⟩
  have first : earlier = [] := by
    cases earlier with
    | nil => rfl
    | cons head rest => simp at split
  subst first
  cases ran
  cases found

end Laws

-- Two small runs, under the linked hash

section SmallRuns

attribute [local instance] Blake3.linked

def separateKeys : List HamtOp :=
  [.insert [0x61] [1], .insert [0x62] [2], .remove [0x61]]

theorem separateKeys_fits : ∀ op ∈ separateKeys, op.Fits := by
  simp [separateKeys, HamtOp.Fits, HamtNode.Fits]

theorem separateKeys_clashFree : RunClashFree separateKeys :=
  runClashFree_of_isSome 5 (by decide +kernel) (by decide +kernel)

theorem sharedChunk_fits : ∀ op ∈ [HamtOp.insert [0x62] [1], .insert [0x71] [2]], op.Fits := by
  simp [HamtOp.Fits, HamtNode.Fits]

theorem sharedChunk_clashFree
    : RunClashFree [.insert [0x62] [1], .insert [0x71] [2]] :=
  runClashFree_of_isSome 5 (by decide +kernel) (by decide +kernel)

/-- The two keys differ first at the second level, so the second insertion skips the first. -/
theorem sharedChunk_skips
    : ∃ root middle,
        runOps 5 [.insert [0x62] [1]] none fresh = .ok root middle
        ∧ SkipsLevel middle.view root [0x71] := by
  let leaf := HamtNode.leaf [0x62] [1]
  have ran : valueOf (runOps 5 [.insert [0x62] [1]] none fresh)
      = some (some (Hash.ofBytes leaf.encode)) := by decide +kernel
  exact ⟨_, _, eq_ok_of_valueOf ran, _, rfl,
    .leaf (by decide +kernel : nodeAt _ _ = some leaf) (by decide) (by decide +kernel)⟩

end SmallRuns

-- The insert law

section InsertLaw

variable [Blake3]

/-- A skipped level breaks the insert law: one of the two keys of the split reads nothing. -/
theorem InsertLaw.not_skips {ops : List HamtOp} {key value : Bytes} (law : InsertLaw ops key value)
    (never : NeverSkips ops) (fits : ∀ op ∈ ops ++ [.insert key value], op.Fits)
    (clashFree : RunClashFree (ops ++ [.insert key value]))
    {fuel : Nat} {root : Option Hash} {middle : Traced MemCas} (ran : runOps fuel ops none fresh = .ok root middle)
    : ¬ SkipsLevel middle.view root key := by
  intro skips
  obtain ⟨budget, returns⟩ := law
  obtain ⟨budget', clashFree⟩ := clashFree
  -- One budget for the run that reached the skip, the law and the hypothesis on clashes.
  let large := max (max fuel budget') (max budget (ops.length + 1))
  have ranLarge := runOps_of_le (by omega : fuel ≤ large) ran
  obtain ⟨root', middle', newRoot, last, again, inserted, ⟨_, readsKey⟩, readsOther⟩ :=
    returns large (by omega)
  rw [ranLarge] at again
  cases again
  obtain ⟨trie, after, mapped, skipsTrie, updated, rooted, height, valid⟩ :=
    never.insert_of_skips fits (clashFree large (by omega)) (by omega) ranLarge skips inserted
  have looked (other : Bytes) := rooted.get_eq valid
    (height.mono (by omega : ops.length + 1 ≤ large)) other
  rcases updated.hides mapped.placed skipsTrie with hidden | ⟨other, old, different, found, hidden⟩
  · obtain ⟨_, -, now⟩ := looked key
    rw [readsKey, hidden] at now
    cases now
  · obtain ⟨kept, ⟨_, before⟩, ⟨_, after⟩⟩ := readsOther other different
    obtain ⟨_, -, now⟩ := looked other
    obtain ⟨_, earlier⟩ := mapped.reads (by omega : ops.length ≤ large) other
    rw [after, hidden] at now
    rw [before, found] at earlier
    cases now
    cases earlier

/-- Every insertion of a run obeys the insert law exactly if no insertion skips a level; and
then every key reads back the value last written for it.
-/
theorem insertLaw_iff_neverSkips {ops : List HamtOp} (fits : ∀ op ∈ ops, op.Fits)
    (clashFree : RunClashFree ops)
    : ((∀ earlier key value later, ops = earlier ++ .insert key value :: later
          → InsertLaw earlier key value)
        ↔ NeverSkips ops)
      ∧ (NeverSkips ops
        → ∃ budget, ∀ fuel, budget ≤ fuel → ∃ root last,
            runOps fuel ops none fresh = .ok root last
            ∧ ∀ key, Reads fuel root last key (lastWritten ops key)) := by
  refine ⟨⟨fun law => neverSkips_of_step ?_, fun never earlier key value later split => ?_⟩,
    fun never => ?_⟩
  · intro earlier key value later split never fuel root middle ran
    have holds := law earlier key value later split
    rw [split, List.append_cons] at fits clashFree
    exact holds.not_skips never (fits_earlier fits) clashFree.earlier ran
  · rw [split, List.append_cons] at fits clashFree never
    exact never.earlier.insertLaw (fits_earlier fits) clashFree.earlier
  · obtain ⟨budget, clashFree⟩ := clashFree
    refine ⟨max budget (ops.length + 1), fun fuel enough => ?_⟩
    obtain ⟨root, last, trie, ran, mapped, written⟩ := never.run fits (clashFree fuel (by omega))
      (by omega : ops.length < fuel)
    exact ⟨root, last, ran, fun key => written key ▸ mapped.reads (by omega) key⟩

end InsertLaw

section InsertLawRuns

attribute [local instance] Blake3.linked

/-- The law on a run over keys of different branches. -/
theorem insertLaw_iff_neverSkips_separateKeys
    : (∀ op ∈ separateKeys, op.Fits)
      ∧ RunClashFree separateKeys
      ∧ ((∀ earlier key value later, separateKeys = earlier ++ .insert key value :: later
            → InsertLaw earlier key value)
          ↔ NeverSkips separateKeys) :=
  ⟨separateKeys_fits, separateKeys_clashFree,
    (insertLaw_iff_neverSkips separateKeys_fits separateKeys_clashFree).1⟩

/-- The insert law fails for a second key whose hash shares its first five bits. -/
theorem insertLaw_fails_on_sharedChunk
    : (∀ op ∈ [HamtOp.insert [0x62] [1], .insert [0x71] [2]], op.Fits)
      ∧ RunClashFree [.insert [0x62] [1], .insert [0x71] [2]]
      ∧ ¬ InsertLaw [.insert [0x62] [1]] [0x71] [2] := by
  obtain ⟨root, middle, ran, skips⟩ := sharedChunk_skips
  exact ⟨sharedChunk_fits, sharedChunk_clashFree, fun law =>
    law.not_skips (neverSkips_single _) sharedChunk_fits sharedChunk_clashFree ran skips⟩

end InsertLawRuns

-- Lookup and listing

section EntriesLaw

variable [Blake3]

/-- After the operations, the listing repeats no key and holds exactly the pairs that looking
up their keys finds.
-/
def EntriesLaw (ops : List HamtOp) : Prop :=
  ∃ budget, ∀ fuel, budget ≤ fuel → ∃ root middle listed after,
    runOps fuel ops none fresh = .ok root middle
    ∧ entries fuel root middle = .ok listed after
    ∧ (listed.map Prod.fst).Nodup
    ∧ ∀ key value, (key, value) ∈ listed ↔ Reads fuel root middle key (some value)

/-- Under a mapped root a key reads a value exactly if the trie holds it. -/
theorem Mapped.reads_iff {state : Traced MemCas} {root : Option Hash} {trie : Trie}
    {bound fuel : Nat} (mapped : Mapped state root trie bound) (enough : bound ≤ fuel)
    (key value : Bytes)
    : Reads fuel root state key (some value) ↔ trie.Mem key value := by
  rw [← HashTrie.get_eq_some chunk mapped.placed]
  obtain ⟨_, looked⟩ := mapped.reads enough key
  constructor
  · rintro ⟨_, again⟩
    rw [looked] at again
    exact (EStateM.Result.ok.inj again).1
  · intro found
    exact found ▸ mapped.reads enough key

/-- Without a skipped level, lookup and listing agree after the run. -/
theorem NeverSkips.entriesLaw {ops : List HamtOp} (never : NeverSkips ops)
    (fits : ∀ op ∈ ops, op.Fits) (clashFree : RunClashFree ops)
    : EntriesLaw ops := by
  obtain ⟨budget, clashFree⟩ := clashFree
  refine ⟨max budget (ops.length + 1), fun fuel enough => ?_⟩
  obtain ⟨root, middle, trie, ran, mapped, -⟩ := never.run fits (clashFree fuel (by omega))
    (by omega : ops.length < fuel)
  obtain ⟨after, -, listed⟩ := mapped.rooted.entries_eq mapped.sound.valid
    (mapped.height.mono (by omega : ops.length ≤ fuel))
  refine ⟨root, middle, _, after, ran, listed,
    HashTrie.entries_keys_nodup (List.nodup_finRange 32) List.mem_finRange mapped.placed,
    fun key value => ?_⟩
  rw [HashTrie.mem_entries List.mem_finRange, mapped.reads_iff (by omega)]

/-- A skipped level separates lookup from listing: an entry is listed that no lookup finds. -/
theorem EntriesLaw.not_skips {ops : List HamtOp} {key value : Bytes}
    (law : EntriesLaw (ops ++ [.insert key value])) (never : NeverSkips ops)
    (fits : ∀ op ∈ ops ++ [.insert key value], op.Fits)
    (clashFree : RunClashFree (ops ++ [.insert key value])) {fuel : Nat} {root : Option Hash}
    {middle : Traced MemCas} (ran : runOps fuel ops none fresh = .ok root middle)
    : ¬ SkipsLevel middle.view root key := by
  intro skips
  obtain ⟨budget, returns⟩ := law
  obtain ⟨budget', clashFree⟩ := clashFree
  let large := max (max fuel budget') (max budget (ops.length + 1))
  have ranLarge := runOps_of_le (by omega : fuel ≤ large) ran
  obtain ⟨finalRoot, last, listed, state, ranAll, collected, -, agree⟩ := returns large (by omega)
  rw [runOps_append, bind_of_ok ranLarge] at ranAll
  obtain ⟨_, _, applied, finished⟩ := bind_eq_ok.mp ranAll
  obtain ⟨newRoot, _, inserted, wrapped⟩ := bind_eq_ok.mp applied
  cases wrapped
  cases finished
  obtain ⟨trie, after, mapped, skipsTrie, updated, rooted, height, valid⟩ :=
    never.insert_of_skips fits (clashFree large (by omega)) (by omega) ranLarge skips inserted
  have low := height.mono (by omega : ops.length + 1 ≤ large)
  obtain ⟨_, -, all⟩ := rooted.entries_eq valid low
  rw [collected] at all
  cases all
  -- Whatever the trie holds is listed, hence read, hence found on its path.
  have found {other : Bytes} {old : Bytes} (member : after.Mem other old)
      : after.get chunk other 0 = some old := by
    obtain ⟨_, read⟩ := (agree other old).mp ((HashTrie.mem_entries List.mem_finRange _ _ _).mpr member)
    obtain ⟨_, -, looked⟩ := rooted.get_eq valid low other
    rw [read] at looked
    exact (EStateM.Result.ok.inj looked).1.symm
  rcases updated.hides mapped.placed skipsTrie with hidden | ⟨other, old, different, before, hidden⟩
  · simp [found updated.mem_self] at hidden
  · have member := (HashTrie.get_eq_some chunk mapped.placed other old).mp before
    simp [found (updated.mem_other different member)] at hidden

/-- Lookup and listing agree after every part of a run exactly if no insertion skips a level. -/
theorem entriesLaw_iff_neverSkips {ops : List HamtOp} (fits : ∀ op ∈ ops, op.Fits)
    (clashFree : RunClashFree ops)
    : (∀ earlier later, ops = earlier ++ later → EntriesLaw earlier) ↔ NeverSkips ops := by
  refine ⟨fun law => neverSkips_of_step ?_, fun never earlier later split => ?_⟩
  · intro earlier key value later split never fuel root middle ran
    rw [List.append_cons] at split
    have holds := law _ later split
    rw [split] at fits clashFree
    exact holds.not_skips never (fits_earlier fits) clashFree.earlier ran
  · rw [split] at fits clashFree never
    exact never.earlier.entriesLaw (fits_earlier fits) clashFree.earlier

end EntriesLaw

section EntriesLawRuns

attribute [local instance] Blake3.linked

/-- Lookup and listing on a run over keys of different branches. -/
theorem entriesLaw_iff_neverSkips_separateKeys
    : (∀ op ∈ separateKeys, op.Fits)
      ∧ RunClashFree separateKeys
      ∧ ((∀ earlier later, separateKeys = earlier ++ later → EntriesLaw earlier)
          ↔ NeverSkips separateKeys) :=
  ⟨separateKeys_fits, separateKeys_clashFree,
    entriesLaw_iff_neverSkips separateKeys_fits separateKeys_clashFree⟩

/-- After two keys whose hashes share their first five bits, lookup and listing disagree. -/
theorem entriesLaw_fails_on_sharedChunk
    : (∀ op ∈ [HamtOp.insert [0x62] [1], .insert [0x71] [2]], op.Fits)
      ∧ RunClashFree [.insert [0x62] [1], .insert [0x71] [2]]
      ∧ ¬ EntriesLaw [.insert [0x62] [1], .insert [0x71] [2]] := by
  obtain ⟨root, middle, ran, skips⟩ := sharedChunk_skips
  exact ⟨sharedChunk_fits, sharedChunk_clashFree, fun law =>
    EntriesLaw.not_skips law (neverSkips_single _) sharedChunk_fits sharedChunk_clashFree ran
      skips⟩

end EntriesLawRuns

end Epochs.PersistentHamt
