import Epochs.Ql.Statements

/-! The schema that statements read, and the names of the index roots they write. The schema's
file is beside the objects and the refs, so that storing objects leaves it, and a commit has the
roots of indexes of its schema only.
-/

namespace Epochs.Ql

open Lib DiskStore

-- The schema's file

namespace SchemaRegistry

def statePath (repoPath : Path) : Path := repoPath ++ ["schema.state"]

theorem aside_statePath (repoPath : Path) : CasDisk.Aside repoPath (statePath repoPath) :=
  ⟨"schema.state", [], rfl, by decide, by decide⟩

/-- The schema depends on the places above its file and on the file. -/
theorem schemaAt_of_nodes {before after : FileSystem} {repoPath : Path}
    (plain : ∀ part ∈ repoPath, part ≠ "" ∧ part ≠ "." ∧ part ≠ "..")
    (nodes : ∀ front, front <+: statePath repoPath → after.node front = before.node front)
    (file : after.fileAt (statePath repoPath) = before.fileAt (statePath repoPath))
    : schemaAt after repoPath = schemaAt before repoPath := by
  have named : ∀ part ∈ statePath repoPath, part ≠ "" ∧ part ≠ "." ∧ part ≠ ".." := by
    intro part member
    rcases List.mem_append.mp member with inPath | last
    · exact plain part inPath
    · rw [List.mem_singleton.mp last]
      decide
  obtain ⟨present, text⟩ := World.read_of_nodes named nodes file
  unfold statePath at present text
  simp only [schemaAt, present, text]

/-- Between stores whose directories stand, the schema is the same when its file is. -/
theorem schemaAt_of_file {before after : FileSystem} {repo : Repo} (first : repo.Stands before)
    (second : repo.Stands after)
    (node : after.node (statePath repo.path) = before.node (statePath repo.path))
    (file : after.fileAt (statePath repo.path) = before.fileAt (statePath repo.path))
    : schemaAt after repo.path = schemaAt before repo.path := by
  refine schemaAt_of_nodes first.plain (fun front above => ?_) file
  rcases List.prefix_concat_iff.mp above with rfl | inPath
  · exact node
  · have inHeads : front <+: Repo.heads repo.path := inPath.trans (List.prefix_append _ _)
    rw [first.dirs front inHeads, second.dirs front inHeads]

end SchemaRegistry

def schemaOf (store : DiskStore) : Except ParseError SchemaRegistry :=
  SchemaRegistry.schemaAt store.world.fs store.repo.path

/-- Storing objects leaves the schema. -/
theorem schemaOf_of_settled [Blake3] {before after : DiskStore} (settled : before.Settled)
    (serves : Serves before after) (still : after.Settled)
    : schemaOf after = schemaOf before := by
  have stands := still.stands
  rw [serves.repo] at stands
  obtain ⟨node, file⟩ := serves.elsewhere settled
    (SchemaRegistry.aside_statePath before.repo.path)
  rw [schemaOf, schemaOf, serves.repo]
  exact SchemaRegistry.schemaAt_of_file settled.stands stands node file

theorem schemaOf_of_serves [Blake3] {before after : DiskStore} (settled : before.Settled)
    (serves : Serves before after) (roomy : Traced.Roomy after.cas.handed)
    : schemaOf after = schemaOf before :=
  schemaOf_of_settled settled serves (settled.serves serves roomy)

-- Names of index roots

/-- The roots that are kept are those of the schema's indexes. -/
theorem updateIndexesForCommit_eq_ok [Blake3] {fuel : Nat} {schema : SchemaRegistry}
    {oldDoc newDoc : Doc} {prevIndexRoots indexRoots : IndexRoots} {store last : DiskStore}
    (ran : updateIndexesForCommit fuel schema oldDoc newDoc prevIndexRoots store
      = .ok indexRoots last)
    : indexRoots = prevIndexRoots
      ∨ ∀ entry ∈ indexRoots.entries, entry.1 ∈ schema.allIndexes.map IndexDef.name := by
  unfold updateIndexesForCommit at ran
  split at ran
  · cases ran
    exact .inl rfl
  · obtain ⟨found, middle, -, ran⟩ := Run.bind_eq_ok.mp ran
    cases ran
    refine .inr fun entry member => ?_
    simpa using (List.mem_filter.mp member).2

def SchemaRegistry.Fits (schema : SchemaRegistry) : Prop :=
  schema.allIndexes.length < 65536
  ∧ ∀ index ∈ schema.allIndexes, (Utf8.encode index.name).length < 65536

/-- Then index roots that are kept fit. -/
theorem fits_of_names {schema : SchemaRegistry} (fits : schema.Fits) {indexRoots : IndexRoots}
    (names : ∀ entry ∈ indexRoots.entries, entry.1 ∈ schema.allIndexes.map IndexDef.name)
    : indexRoots.size < 65536
      ∧ ∀ entry ∈ indexRoots.entries, (Utf8.encode entry.1).length < 65536 := by
  constructor
  · have distinct : (indexRoots.entries.map Prod.fst).Nodup :=
      List.pairwise_map.mpr (indexRoots.sorted.imp ne_of_lt)
    have fewer := (List.subperm_of_subset distinct (by
      intro name member
      obtain ⟨entry, inside, rfl⟩ := List.mem_map.mp member
      exact names entry inside)).length_le
    rw [List.length_map, List.length_map] at fewer
    exact lt_of_le_of_lt fewer fits.1
  · intro entry member
    obtain ⟨index, inside, same⟩ := List.mem_map.mp (names entry member)
    rw [← same]
    exact fits.2 index inside

-- Documents that stay

/-- The fields of a document are texts, as they are when it is read from a tree. -/
def Textual (doc : Doc) : Prop := ∀ key value, doc.get key = some value → ∃ text, value = .string text

theorem textual_flattenEntries (entries : List (Bytes × Bytes)) : Textual (flattenEntries entries) := by
  intro key value found
  rcases SortedMap.mem_insertAll (SortedMap.mem_of_get found) with old | new
  · cases old
  · obtain ⟨entry, -, same⟩ := List.mem_map.mp new
    exact ⟨_, (Prod.mk.inj same).2.symm⟩

theorem Textual.extractPath {doc : Doc} (textual : Textual doc) {path : String} {value : Value}
    (found : extractPath doc path = some value)
    : ∃ text, value = .string text := by
  unfold Ql.extractPath at found
  split at found
  · rename_i value' whole
    cases found
    exact textual _ _ whole
  · split at found
    · cases found
    · split at found
      · rename_i rest _ _ value' held
        obtain ⟨text, rfl⟩ := textual _ _ held
        cases rest with
        | nil =>
          cases found
          exact ⟨text, rfl⟩
        | cons part rest => cases found
      · cases found

def Applies (doc : Doc) (coll : CollectionSchema) (index : IndexDef) : Prop :=
  (primaryKeyBytes coll doc).isSome ∧ (extractPath doc index.path).isSome

def HasRoot (roots : IndexRoots) (name : String) : Prop := name ∈ AssocMap.keys roots.entries

section Upkeep

variable {roots next : IndexRoots} {name : String}

theorem hasRoot_insert {key : String} {root : Hash}
    : HasRoot (roots.insert key root) name ↔ HasRoot roots name ∨ key = name := by
  unfold HasRoot
  rw [← AssocMap.lookup_isSome, SortedMap.insert, SortedMap.lookup_insertEntry,
    ← AssocMap.lookup_isSome]
  by_cases same : key = name
  · simp [same]
  · simp [same]

theorem hasRoot_retain {keep : String → Bool}
    : HasRoot (roots.retain keep) name ↔ HasRoot roots name ∧ keep name := by
  simp [HasRoot, AssocMap.keys, SortedMap.retain]

theorem eq_empty_iff : roots = SortedMap.empty ↔ ∀ name, ¬ HasRoot roots name := by
  constructor
  · rintro rfl name member
    cases member
  · intro none
    refine SortedMap.ext (List.map_eq_nil_iff.mp (List.eq_nil_iff_forall_not_mem.mpr none))

variable [Blake3] {fuel : Nat} {doc : Doc} {store last : DiskStore}

/-- Where the document stays, an index has a root if it had one or the document has an entry. -/
theorem hasRoot_updateIndex (textual : Textual doc) {pk : Option Bytes} {index : IndexDef}
    (ran : updateIndex fuel doc doc pk roots index store = .ok next last) (name : String)
    : HasRoot next name
      ↔ HasRoot roots name ∨ (pk.isSome ∧ (extractPath doc index.path).isSome) ∧ index.name = name := by
  unfold updateIndex at ran
  cases found : extractPath doc index.path with
  | none =>
    rw [found] at ran
    cases ran
    simp
  | some value =>
    rw [found] at ran
    obtain ⟨text, rfl⟩ := textual.extractPath found
    cases pk with
    | none =>
      cases ran
      simp
    | some key =>
      have kept : removeStale fuel index (some (.string text)) (some (.string text)) (some key) roots
          = pure roots := by
        simp [removeStale, Value.eq]
      rw [kept, pure_bind] at ran
      obtain ⟨root, middle, -, ended⟩ := Run.bind_eq_ok.mp ran
      cases ended
      simp [hasRoot_insert]

omit [Blake3] in
/-- What the steps of a loop add is what the loop adds. -/
theorem hasRoot_foldlM {α : Type} {step : IndexRoots → α → Run EpochsError DiskStore IndexRoots}
    {adds : α → String → Prop}
    (each : ∀ roots item store next last, step roots item store = .ok next last
      → ∀ name, HasRoot next name ↔ HasRoot roots name ∨ adds item name)
    {items : List α} (ran : items.foldlM step roots store = .ok next last) (name : String)
    : HasRoot next name ↔ HasRoot roots name ∨ ∃ item ∈ items, adds item name := by
  induction items generalizing roots store with
  | nil =>
    cases ran
    simp
  | cons item rest ih =>
    rw [List.foldlM_cons] at ran
    obtain ⟨middle, between, stepped, onward⟩ := Run.bind_eq_ok.mp ran
    rw [ih onward, each _ _ _ _ _ stepped, or_assoc]
    simp

theorem hasRoot_updateCollection (textual : Textual doc) {coll : CollectionSchema}
    (ran : updateCollection fuel doc doc roots coll store = .ok next last) (name : String)
    : HasRoot next name
      ↔ HasRoot roots name ∨ ∃ index ∈ coll.indexes, Applies doc coll index ∧ index.name = name := by
  rw [updateCollection, Option.or_self] at ran
  exact hasRoot_foldlM (fun _ _ _ _ _ ran => hasRoot_updateIndex textual ran) ran name

/-- From no roots, a document that stays comes to have some exactly if it has an entry in an index. -/
theorem updateIndexesForCommit_same (textual : Textual doc) {schema : SchemaRegistry}
    (ran : updateIndexesForCommit fuel schema doc doc SortedMap.empty store = .ok next last)
    : next = SortedMap.empty
      ↔ ∀ coll ∈ schema.collections.values, ∀ index ∈ coll.indexes, ¬ Applies doc coll index := by
  unfold updateIndexesForCommit at ran
  split at ran
  · rename_i none
    cases ran
    simp [SortedMap.values, none]
  · obtain ⟨found, middle, folded, ended⟩ := Run.bind_eq_ok.mp ran
    cases ended
    have has := hasRoot_foldlM (fun roots coll store next last ran =>
      hasRoot_updateCollection textual ran) folded
    simp only [eq_empty_iff, hasRoot_retain, has, not_and]
    constructor
    · intro none coll inColls index inIndexes applies
      refine none index.name (.inr ⟨coll, inColls, index, inIndexes, applies, rfl⟩) ?_
      simp only [List.contains_eq_mem, decide_eq_true_eq, List.mem_map]
      exact ⟨index, List.mem_flatMap.mpr ⟨coll, inColls, inIndexes⟩, rfl⟩
    · rintro none name (member | ⟨coll, inColls, index, inIndexes, applies, -⟩)
      · cases member
      · exact absurd applies (none coll inColls index inIndexes)

end Upkeep

end Epochs.Ql
