import Epochs.Lib.Words
import Epochs.Ql.Registry

/-! When the state file of a schema can be read back. Names and paths are written as they are,
between blanks, and an index line names its collection only as the start of the index's name.
-/

namespace Epochs.Ql

open Lib Text

/-- What the state file can hold of a collection: its name and paths are words, and its name has
no dot when it has indexes.
-/
structure CollectionSchema.Plain (collection : CollectionSchema) : Prop where
  name : IsWord collection.name
  dotless : collection.indexes ≠ [] → '.' ∉ collection.name.toList
  keys : ∀ key ∈ collection.primaryKey, IsWord key.path
  indexes : ∀ index ∈ collection.indexes, IsWord index.path

instance (collection : CollectionSchema) : Decidable collection.Plain :=
  decidable_of_iff
    (IsWord collection.name ∧ (collection.indexes ≠ [] → '.' ∉ collection.name.toList)
      ∧ (∀ key ∈ collection.primaryKey, IsWord key.path)
      ∧ ∀ index ∈ collection.indexes, IsWord index.path)
    ⟨fun ⟨name, dotless, keys, indexes⟩ => ⟨name, dotless, keys, indexes⟩,
      fun plain => ⟨plain.name, plain.dotless, plain.keys, plain.indexes⟩⟩

def ownerOf (index : String) : String := (Text.split '.' index).headD ""

/-- A collection of any index names that the state file can hold. -/
structure CollectionSchema.Storable (collection : CollectionSchema) : Prop where
  name : IsWord collection.name
  keys : ∀ key ∈ collection.primaryKey, IsWord key.path
  indexes : ∀ index ∈ collection.indexes,
    IsWord index.name ∧ ownerOf index.name = collection.name ∧ IsWord index.path

instance (collection : CollectionSchema) : Decidable collection.Storable :=
  decidable_of_iff
    (IsWord collection.name ∧ (∀ key ∈ collection.primaryKey, IsWord key.path)
      ∧ ∀ index ∈ collection.indexes,
        IsWord index.name ∧ ownerOf index.name = collection.name ∧ IsWord index.path)
    ⟨fun ⟨name, keys, indexes⟩ => ⟨name, keys, indexes⟩,
      fun storable => ⟨storable.name, storable.keys, storable.indexes⟩⟩

namespace SchemaRegistry

def Storable (registry : SchemaRegistry) : Prop :=
  ∀ collection ∈ registry.collections.values, collection.Storable

instance (registry : SchemaRegistry) : Decidable registry.Storable :=
  inferInstanceAs (Decidable (∀ collection ∈ registry.collections.values, collection.Storable))

def Plain (registry : SchemaRegistry) : Prop :=
  ∀ collection ∈ registry.collections.values, collection.Plain

instance (registry : SchemaRegistry) : Decidable registry.Plain :=
  inferInstanceAs (Decidable (∀ collection ∈ registry.collections.values, collection.Plain))

-- Names in a registry made by migrations

theorem applyStatements_cons {registry last : SchemaRegistry} {statement : DdlStatement}
    {rest : List DdlStatement}
    : applyStatements registry (statement :: rest) = .ok last
      ↔ ∃ next, applyStatement registry statement = .ok next
        ∧ applyStatements next rest = .ok last :=
  except_bind_eq_ok

/-- What each statement keeps, a migration keeps. -/
theorem applyStatements_invariant {holds : SchemaRegistry → Prop}
    (step : ∀ registry next statement, holds registry
      → applyStatement registry statement = .ok next → holds next)
    {registry last : SchemaRegistry} {statements : List DdlStatement} (first : holds registry)
    (applied : applyStatements registry statements = .ok last)
    : holds last := by
  induction statements generalizing registry with
  | nil =>
    cases applied
    exact first
  | cons statement rest ih =>
    obtain ⟨next, here, later⟩ := applyStatements_cons.mp applied
    exact ih (step registry next statement first here) later

def Each (holds : String → CollectionSchema → Prop) (registry : SchemaRegistry) : Prop :=
  ∀ entry ∈ registry.collections.entries, holds entry.1 entry.2

variable {holds : String → CollectionSchema → Prop}

theorem each_new : new.Each holds := by
  intro entry member
  cases member

theorem Each.setCollection {registry : SchemaRegistry} (each : registry.Each holds) {name : String}
    {collection : CollectionSchema} (here : holds name collection)
    : (registry.setCollection name collection).Each holds := by
  intro entry member
  rcases SortedMap.mem_insertEntry member with rfl | old
  · exact here
  · exact each entry old

theorem Each.of_get {registry : SchemaRegistry} (each : registry.Each holds) {name : String}
    {collection : CollectionSchema} (found : registry.collections.get name = some collection)
    : holds name collection :=
  each (name, collection) (SortedMap.mem_of_get found)

/-- What a statement keeps of every collection: what it creates has the property, and a collection
keeps it when an index is added or indexes are dropped.
-/
theorem Each.applyStatement {registry next : SchemaRegistry} {statement : DdlStatement}
    (each : registry.Each holds) (applied : applyStatement registry statement = .ok next)
    (create : ∀ name keys, statement = .createCollection name keys
      → holds name ⟨name, keys.map fun (path, fieldType) => { path, fieldType }, []⟩)
    (extend_ : ∀ name path fieldType found, statement = .createIndex name path fieldType
      → (∀ index ∈ found.indexes, index.name ≠ indexNameFor name path) → holds name found
      → holds name { found with
          indexes := found.indexes ++ [{ name := indexNameFor name path, path, fieldType }] })
    (shrink : ∀ name found (kept : IndexDef → Bool), holds name found
      → holds name { found with indexes := found.indexes.filter kept })
    : next.Each holds := by
  cases statement with
  | createCollection name keys =>
    simp only [SchemaRegistry.applyStatement] at applied
    split at applied
    · cases applied
    · cases applied
      exact each.setCollection (create name keys rfl)
  | createIndex collection path fieldType =>
    simp only [SchemaRegistry.applyStatement] at applied
    split at applied
    · cases applied
    · rename_i found here
      split at applied
      · cases applied
      · rename_i fresh
        cases applied
        exact each.setCollection (extend_ collection path fieldType found rfl (by simpa using fresh)
          (each.of_get here))
  | dropIndex collection path =>
    simp only [SchemaRegistry.applyStatement] at applied
    split at applied
    · cases applied
    · rename_i found here
      split at applied
      · cases applied
      · cases applied
        exact each.setCollection (shrink collection found _ (each.of_get here))

def Keyed : SchemaRegistry → Prop := Each fun name collection => name = collection.name

theorem applyStatements_keyed {registry last : SchemaRegistry} {statements : List DdlStatement}
    (keyed : registry.Keyed) (applied : applyStatements registry statements = .ok last)
    : last.Keyed :=
  applyStatements_invariant (fun _ _ _ each applied => each.applyStatement applied
    (fun _ _ _ => rfl) (fun _ _ _ _ _ _ same => same) fun _ _ _ same => same) keyed applied

/-- The name of each collection is its key, and the name of each index is made from its path. -/
def Named : SchemaRegistry → Prop :=
  Each fun name collection => name = collection.name
    ∧ ∀ index ∈ collection.indexes, index.name = indexNameFor collection.name index.path

theorem named_new : new.Named := each_new

theorem applyStatement_named {registry next : SchemaRegistry} {statement : DdlStatement}
    (named : registry.Named) (applied : applyStatement registry statement = .ok next)
    : next.Named := by
  refine Each.applyStatement named applied (fun _ _ _ => ⟨rfl, by simp⟩) ?_ ?_
  · rintro _ path fieldType found - - ⟨rfl, indexes⟩
    refine ⟨rfl, fun index member => ?_⟩
    rcases List.mem_append.mp member with old | new
    · exact indexes index old
    · rw [List.mem_singleton.mp new]
  · rintro _ found kept ⟨rfl, indexes⟩
    exact ⟨rfl, fun index member => indexes index (List.mem_filter.mp member).1⟩

theorem applyStatements_named {registry last : SchemaRegistry} {statements : List DdlStatement}
    (named : registry.Named) (applied : applyStatements registry statements = .ok last)
    : last.Named :=
  applyStatements_invariant (fun _ _ _ => applyStatement_named) named applied

-- The lines of the file

def keyWords (key : FieldDef) : List String := ["KEY", key.path, key.fieldType.display]

def indexWords (index : IndexDef) : List String :=
  ["INDEX", index.name, "PATH", index.path, "TYPE", index.fieldType.display]

def collectionTexts (collection : CollectionSchema) : List String :=
  unwords ["COLLECTION", collection.name]
    :: collection.primaryKey.map (fun key => unwords (keyWords key))
    ++ collection.indexes.map (fun index => unwords (indexWords index))

def header : String := "# epochs schema.state — generated; prefer .eql migrations"

theorem keyLine_eq (key : FieldDef) : keyLine key = unwords (keyWords key) ++ "\n" := by
  rw [← String.toList_inj]
  simp [keyLine, keyWords, join]

theorem indexLine_eq (index : IndexDef)
    : indexLine index = unwords (indexWords index) ++ "\n" := by
  rw [← String.toList_inj]
  simp [indexLine, indexWords, join]

theorem collectionLines_eq (collection : CollectionSchema)
    : collectionLines collection = (collectionTexts collection).map (· ++ "\n") := by
  have first : s!"COLLECTION {collection.name}\n"
      = unwords ["COLLECTION", collection.name] ++ "\n" := by
    rw [← String.toList_inj]
    simp [join]
  simp only [collectionLines, collectionTexts, List.cons_append, List.map_cons, List.map_append,
    List.map_map, first]
  rw [List.map_congr_left fun key _ => keyLine_eq key,
    List.map_congr_left fun index _ => indexLine_eq index]
  rfl

theorem toStateFile_eq (registry : SchemaRegistry)
    : registry.toStateFile
      = unlines (header :: registry.collections.values.flatMap collectionTexts) := by
  have each : registry.collections.values.flatMap collectionLines
      = (registry.collections.values.flatMap collectionTexts).map (· ++ "\n") := by
    rw [List.map_flatMap]
    exact List.flatMap_congr fun collection _ => collectionLines_eq collection
  rw [toStateFile, each, unlines, List.map_cons]
  rfl

theorem isWord_display (fieldType : FieldType) : IsWord fieldType.display := by
  cases fieldType <;> decide

theorem typeAt_display (lineno : Nat) (fieldType : FieldType)
    : typeAt lineno fieldType.display = .ok fieldType := by
  cases fieldType <;> rfl

/-- The name of an index is a word when its parts are. -/
theorem isWord_indexNameFor {collection path : String} (word : IsWord collection)
    (pathWord : IsWord path)
    : IsWord (indexNameFor collection path) := by
  have chars : (indexNameFor collection path).toList
      = collection.toList ++ ".by_".toList
        ++ path.toList.map (fun char => if char = '.' then '_' else char) := by
    simp [indexNameFor, Text.replace]
  refine ⟨fun empty => ?_, fun char member => ?_⟩
  · simp [empty] at chars
  · rw [chars, List.mem_append, List.mem_append, List.mem_map] at member
    rcases member with (inName | inMark) | ⟨old, inPath, rfl⟩
    · exact word.solid char inName
    · have solid : (".by_".toList.all fun char => !isWhitespace char) = true := by decide
      simpa using List.all_eq_true.mp solid char inMark
    · split
      · decide
      · exact pathWord.solid old inPath

/-- The collection an index line names is that of the index, if its name has no dot. -/
theorem owner_indexNameFor {collection : String} (dotless : '.' ∉ collection.toList)
    (path : String)
    : ownerOf (indexNameFor collection path) = collection := by
  have none : ∀ char ∈ collection.toList, decide (char = '.') = false := by
    intro char member
    rw [decide_eq_false_iff_not]
    rintro rfl
    exact dotless member
  have chars : (indexNameFor collection path).toList
      = collection.toList ++ '.' :: ("by_" ++ Text.replace '.' '_' path).toList := by
    simp [indexNameFor]
  rw [ownerOf, Text.split, chars, splitChars_append none (by decide)]
  simp

theorem not_mem_ownerOf (index : String) : '.' ∉ (ownerOf index).toList :=
  fun member => (mem_toList_headD_split member).2 rfl

/-- For indexes named by their paths, what can be held are the plain collections. -/
theorem storable_iff_plain {collection : CollectionSchema}
    (named : ∀ index ∈ collection.indexes, index.name = indexNameFor collection.name index.path)
    : collection.Storable ↔ collection.Plain := by
  constructor
  · intro storable
    refine ⟨storable.name, fun some_ => ?_, storable.keys,
      fun index member => (storable.indexes index member).2.2⟩
    obtain ⟨index, member⟩ := List.exists_mem_of_ne_nil _ some_
    rw [← (storable.indexes index member).2.1]
    exact not_mem_ownerOf _
  · intro plain
    refine ⟨plain.name, plain.keys, fun index member => ?_⟩
    have pathWord := plain.indexes index member
    rw [named index member]
    exact ⟨isWord_indexNameFor plain.name pathWord,
      owner_indexNameFor (plain.dotless (List.ne_nil_of_mem member)) index.path, pathWord⟩

-- Reading the lines back

variable {lineno : Nat} {state : ParseState}

/-- A line of words that does not begin as a comment is read by its first word. -/
theorem readLine_unwords {directive : String} {rest : List String}
    (words : ∀ word ∈ directive :: rest, IsWord word)
    (notComment : directive.toList.head? ≠ some '#')
    : readLine lineno (unwords (directive :: rest)) state
      = if directive = "COLLECTION" then readCollection lineno (directive :: rest) state
        else if directive = "KEY" then readKey lineno (directive :: rest) state
        else if directive = "INDEX" then readIndex lineno (directive :: rest) state
        else lineError lineno s!"unknown directive '{directive}'" := by
  have isWord := words directive List.mem_cons_self
  have starts : ∃ tail, (unwords (directive :: rest)).toList = directive.toList ++ tail := by
    cases rest with
    | nil => exact ⟨[], by simp [unwords, join]⟩
    | cons second others => exact ⟨_, toList_join_cons " " directive second others⟩
  obtain ⟨tail, chars⟩ := starts
  have kept : ¬ (trim (unwords (directive :: rest)) = ""
      ∨ startsWith (trim (unwords (directive :: rest))) "#") := by
    rw [trim_unwords words]
    cases first : directive.toList with
    | nil => exact absurd first isWord.toList_ne_nil
    | cons char others =>
      rw [first] at chars notComment
      rintro (empty | comment)
      · simp [empty] at chars
      · rw [startsWith_hash, chars, decide_eq_true_eq] at comment
        exact notComment comment
  rw [readLine, if_neg kept, trim_unwords words, splitWhitespace_unwords (by simp) words]

theorem readLine_collection {name : String} (word : IsWord name)
    : readLine lineno (unwords ["COLLECTION", name]) state
      = .ok
          { registry := state.registry.setCollection name ⟨name, [], []⟩
            current := some name } := by
  rw [readLine_unwords (by simpa using ⟨by decide, word⟩) (by decide), if_pos rfl]
  rfl

theorem readLine_key {registry : SchemaRegistry} {collection : CollectionSchema} {key : FieldDef}
    (word : IsWord key.path)
    : readLine lineno (unwords (keyWords key))
        { registry := registry.setCollection collection.name collection
          current := some collection.name }
      = .ok
          { registry := registry.setCollection collection.name
              { collection with primaryKey := collection.primaryKey ++ [key] }
            current := some collection.name } := by
  rw [keyWords, readLine_unwords (by simpa using ⟨by decide, word, isWord_display _⟩) (by decide),
    if_neg (by decide), if_pos rfl]
  simp [readKey, part, setCollection, SortedMap.insert_insert, typeAt_display, bind, Except.bind, pure,
    Except.pure]

theorem readLine_index {registry : SchemaRegistry} {collection : CollectionSchema}
    {index : IndexDef} {current : Option String} (nameWord : IsWord index.name)
    (owner : ownerOf index.name = collection.name) (pathWord : IsWord index.path)
    : readLine lineno (unwords (indexWords index))
        { registry := registry.setCollection collection.name collection, current }
      = .ok
          { registry := registry.setCollection collection.name
              { collection with indexes := collection.indexes ++ [index] }
            current } := by
  have named : (Text.split '.' index.name).head?.getD "" = collection.name := by
    simpa [ownerOf] using owner
  rw [indexWords, readLine_unwords (by
      simpa using ⟨by decide, nameWord, by decide, pathWord, by decide, isWord_display _⟩)
    (by decide), if_neg (by decide), if_neg (by decide), if_pos rfl]
  simp [readIndex, part, setCollection, SortedMap.insert_insert, typeAt_display, named, bind,
    Except.bind, pure, Except.pure]

theorem readLines_append (lineno : Nat) (first second : List String) (state : ParseState)
    : readLines lineno (first ++ second) state
      = (readLines lineno first state).bind (readLines (lineno + first.length) second) := by
  induction first generalizing lineno state with
  | nil => rfl
  | cons line rest ih =>
    simp only [List.cons_append, readLines, bind]
    cases readLine lineno line state with
    | error error => rfl
    | ok next =>
      simp only [Except.bind, ih]
      rw [List.length_cons, Nat.add_assoc, Nat.add_comm 1]

theorem readLines_keys {registry : SchemaRegistry} {collection : CollectionSchema}
    {keys : List FieldDef} (words : ∀ key ∈ keys, IsWord key.path)
    : readLines lineno (keys.map fun key => unwords (keyWords key))
        { registry := registry.setCollection collection.name collection
          current := some collection.name }
      = .ok
          { registry := registry.setCollection collection.name
              { collection with primaryKey := collection.primaryKey ++ keys }
            current := some collection.name } := by
  induction keys generalizing lineno collection with
  | nil => simp [readLines]
  | cons key rest ih =>
    rw [List.map_cons, readLines, readLine_key (words key List.mem_cons_self)]
    have later := @ih (lineno + 1) { collection with
      primaryKey := collection.primaryKey ++ [key] }
      fun key member => words key (List.mem_cons_of_mem _ member)
    simpa [bind, Except.bind] using later

theorem readLines_indexes {registry : SchemaRegistry} {collection : CollectionSchema}
    {indexes : List IndexDef} {current : Option String}
    (storable : ∀ index ∈ indexes,
      IsWord index.name ∧ ownerOf index.name = collection.name ∧ IsWord index.path)
    : readLines lineno (indexes.map fun index => unwords (indexWords index))
        { registry := registry.setCollection collection.name collection, current }
      = .ok
          { registry := registry.setCollection collection.name
              { collection with indexes := collection.indexes ++ indexes }
            current } := by
  induction indexes generalizing lineno collection with
  | nil => simp [readLines]
  | cons index rest ih =>
    obtain ⟨nameWord, owner, pathWord⟩ := storable index List.mem_cons_self
    rw [List.map_cons, readLines, readLine_index nameWord owner pathWord]
    have later := @ih (lineno + 1) { collection with
      indexes := collection.indexes ++ [index] }
      fun index member => storable index (List.mem_cons_of_mem _ member)
    simpa [bind, Except.bind] using later

/-- The lines of a collection that can be held are read back as that collection. -/
theorem readLines_collection {collection : CollectionSchema} (storable : collection.Storable)
    : readLines lineno (collectionTexts collection) state
      = .ok
          { registry := state.registry.setCollection collection.name collection
            current := some collection.name } := by
  rw [collectionTexts, List.cons_append, readLines, readLine_collection storable.name]
  simp only [bind, Except.bind]
  rw [readLines_append, show collection.name = (⟨collection.name, [], []⟩ : CollectionSchema).name
    from rfl, readLines_keys storable.keys]
  simp only [Except.bind]
  rw [@readLines_indexes _ state.registry ⟨collection.name, [] ++ collection.primaryKey, []⟩ _ _
    storable.indexes]
  simp

theorem readLines_collections {collections : List CollectionSchema}
    (storable : ∀ collection ∈ collections, collection.Storable)
    : ∃ current, readLines lineno (collections.flatMap collectionTexts) state
      = .ok ⟨⟨state.registry.collections.insertAll
          (collections.map fun collection => (collection.name, collection))⟩, current⟩ := by
  induction collections generalizing lineno state with
  | nil => exact ⟨state.current, rfl⟩
  | cons collection rest ih =>
    rw [List.flatMap_cons, readLines_append,
      readLines_collection (storable collection List.mem_cons_self)]
    exact ih fun other member => storable other (List.mem_cons_of_mem _ member)

theorem isLine_collectionTexts {collection : CollectionSchema} (storable : collection.Storable)
    : ∀ line ∈ collectionTexts collection, IsLine line := by
  intro line member
  rw [collectionTexts, List.mem_append, List.mem_cons, List.mem_map, List.mem_map] at member
  rcases member with (rfl | ⟨key, inKeys, rfl⟩) | ⟨index, inIndexes, rfl⟩
  · exact isLine_unwords (by simpa using ⟨by decide, storable.name⟩)
  · exact isLine_unwords (by
      simpa [keyWords] using ⟨by decide, storable.keys key inKeys, isWord_display _⟩)
  · obtain ⟨nameWord, -, pathWord⟩ := storable.indexes index inIndexes
    exact isLine_unwords (by
      simpa [indexWords] using ⟨by decide, nameWord, by decide, pathWord, by decide,
        isWord_display _⟩)

/-- A registry that can be held is read back from its state file. -/
theorem parse_toStateFile {registry : SchemaRegistry} (keyed : registry.Keyed)
    (storable : registry.Storable)
    : parse registry.toStateFile = .ok registry := by
  have lines : ∀ line ∈ header :: registry.collections.values.flatMap collectionTexts,
      IsLine line := by
    intro line member
    rcases List.mem_cons.mp member with rfl | later
    · exact ⟨by decide, by decide⟩
    · obtain ⟨collection, inValues, inTexts⟩ := List.mem_flatMap.mp later
      exact isLine_collectionTexts (storable collection inValues) line inTexts
  have entries : registry.collections.values.map (fun collection => (collection.name, collection))
      = registry.collections.entries := by
    rw [SortedMap.values, List.map_map]
    refine (List.map_congr_left fun entry member => ?_).trans (List.map_id _)
    exact Prod.ext (keyed entry member).symm rfl
  have comment : readLine 1 header { registry := new, current := none }
      = .ok { registry := new, current := none } := by
    rw [readLine, if_pos (by decide)]
  obtain ⟨current, ran⟩ := @readLines_collections 2 { registry := new, current := none } _
    storable
  rw [parse, toStateFile_eq, lines_unlines lines, readLines, comment]
  simp only [bind, Except.bind]
  rw [ran, entries]
  simp [new, SortedMap.insertAll_entries, Except.map]

-- What a state file can say

/-- What holds of a registry read from a file: its collections are under their names, which have no
white space, keys and indexes are words, and the index names begin with the collection's.
-/
def Readable : SchemaRegistry → Prop :=
  Each fun name collection => name = collection.name
    ∧ (∀ char ∈ name.toList, isWhitespace char = false)
    ∧ (∀ key ∈ collection.primaryKey, IsWord key.path)
    ∧ ∀ index ∈ collection.indexes,
      IsWord index.name ∧ ownerOf index.name = name ∧ IsWord index.path

theorem part_isWord {parts : List String} (words : ∀ word ∈ parts, IsWord word) {index : Nat}
    {message found : String} (here : part lineno parts index message = .ok found)
    : IsWord found := by
  unfold part at here
  split at here
  · rename_i inParts
    cases here
    exact words _ (List.mem_of_getElem? inParts)
  · cases here

variable {parts : List String} {next : ParseState}

theorem readCollection_readable (words : ∀ word ∈ parts, IsWord word)
    (readable : state.registry.Readable)
    (read : readCollection lineno parts state = .ok next)
    : next.registry.Readable := by
  obtain ⟨name, found, made⟩ := except_bind_eq_ok.mp read
  cases made
  exact Each.setCollection readable ⟨rfl, (part_isWord words found).solid, by simp, by simp⟩

theorem readKey_readable (words : ∀ word ∈ parts, IsWord word)
    (readable : state.registry.Readable)
    (read : readKey lineno parts state = .ok next)
    : next.registry.Readable := by
  unfold readKey at read
  split at read
  · cases read
  · obtain ⟨path, pathAt, read⟩ := except_bind_eq_ok.mp read
    obtain ⟨typeName, -, read⟩ := except_bind_eq_ok.mp read
    obtain ⟨fieldType, -, read⟩ := except_bind_eq_ok.mp read
    split at read
    · cases read
    · rename_i collection held
      cases read
      obtain ⟨same, solid, keys, indexes⟩ := Each.of_get readable held
      refine Each.setCollection readable ⟨same, solid, fun key member => ?_, indexes⟩
      rcases List.mem_append.mp member with old | new
      · exact keys key old
      · rw [List.mem_singleton.mp new]
        exact part_isWord words pathAt

/-- An index line adds to the collection it names. -/
theorem readIndex_readable (words : ∀ word ∈ parts, IsWord word)
    (readable : state.registry.Readable)
    (read : readIndex lineno parts state = .ok next)
    : next.registry.Readable := by
  obtain ⟨name, nameAt, read⟩ := except_bind_eq_ok.mp read
  split at read
  · cases read
  obtain ⟨path, pathAt, read⟩ := except_bind_eq_ok.mp read
  split at read
  · cases read
  obtain ⟨typeName, -, read⟩ := except_bind_eq_ok.mp read
  obtain ⟨fieldType, -, read⟩ := except_bind_eq_ok.mp read
  cases read
  have nameWord := part_isWord words nameAt
  refine Each.setCollection readable ?_
  change _ = _ ∧ (∀ char ∈ (ownerOf name).toList, _) ∧ _
  have before : ∀ collection, (state.registry.collections.get (ownerOf name)).getD
        { name := ownerOf name, primaryKey := [], indexes := [] } = collection
      → ownerOf name = collection.name
        ∧ (∀ key ∈ collection.primaryKey, IsWord key.path)
        ∧ ∀ index ∈ collection.indexes, IsWord index.name
          ∧ ownerOf index.name = ownerOf name ∧ IsWord index.path := by
    rintro _ rfl
    cases held : state.registry.collections.get (ownerOf name) with
    | none => simp
    | some collection =>
      obtain ⟨same, -, others⟩ := Each.of_get readable held
      exact ⟨same, others⟩
  obtain ⟨same, keys, indexes⟩ := before _ rfl
  refine ⟨same, fun char member => nameWord.solid char (mem_toList_headD_split member).1, keys,
    fun index member => ?_⟩
  rcases List.mem_append.mp member with old | new
  · exact indexes index old
  · rw [List.mem_singleton.mp new]
    exact ⟨nameWord, rfl, part_isWord words pathAt⟩

theorem readLine_readable {line : String} (readable : state.registry.Readable) (read : readLine lineno line state = .ok next)
    : next.registry.Readable := by
  unfold readLine at read
  split at read
  · cases read
    exact readable
  · have words : ∀ word ∈ splitWhitespace (trim line), IsWord word :=
      fun word member => isWord_of_mem_splitWhitespace member
    simp only at read
    split at read
    · cases read
      exact readable
    · split at read
      · exact readCollection_readable words readable read
      · split at read
        · exact readKey_readable words readable read
        · split at read
          · exact readIndex_readable words readable read
          · cases read

theorem readLines_readable {lines : List String} {last : ParseState}
    (readable : state.registry.Readable) (read : readLines lineno lines state = .ok last)
    : last.registry.Readable := by
  induction lines generalizing lineno state with
  | nil =>
    cases read
    exact readable
  | cons line rest ih =>
    obtain ⟨next, first, later⟩ := except_bind_eq_ok.mp read
    exact ih (readLine_readable readable first) later

/-- Every registry read from a text is readable. -/
theorem parse_readable {text : String} {registry : SchemaRegistry}
    (parsed : parse text = .ok registry)
    : registry.Readable := by
  unfold parse at parsed
  cases read : readLines 1 (Text.lines text) { registry := new, current := none } with
  | error error => simp [read, Except.map] at parsed
  | ok last =>
    simp only [read, Except.map, Except.ok.injEq] at parsed
    have first : Readable new := each_new
    exact parsed ▸ readLines_readable first read

/-- A line that is never read stops the reading of the file. -/
theorem readLines_of_unreadable {line : String} {lines : List String} (member : line ∈ lines)
    (unreadable : ∀ lineno state, ∃ error, readLine lineno line state = .error error)
    : ∃ error, readLines lineno lines state = .error error := by
  induction lines generalizing lineno state with
  | nil => cases member
  | cons first rest ih =>
    rw [readLines]
    cases read : readLine lineno first state with
    | error error => exact ⟨error, rfl⟩
    | ok next =>
      rcases List.mem_cons.mp member with rfl | later
      · obtain ⟨error, failed⟩ := unreadable lineno state
        rw [failed] at read
        cases read
      · exact ih later

/-- A collection without a name cannot be read back. -/
theorem readLine_unnamed (lineno : Nat) (state : ParseState)
    : ∃ error, readLine lineno (unwords ["COLLECTION", ""]) state = .error error := by
  have trimmed : trim (unwords ["COLLECTION", ""]) = "COLLECTION" := by decide
  have words : splitWhitespace "COLLECTION" = ["COLLECTION"] := by decide
  have kept : ¬ ("COLLECTION" = "" ∨ startsWith "COLLECTION" "#") := by decide
  exact ⟨_, by rw [readLine, trimmed, if_neg kept, words]; rfl⟩

theorem parse_unnamed {registry : SchemaRegistry} {collection : CollectionSchema}
    (member : collection ∈ registry.collections.values) (unnamed : collection.name = "")
    : ∃ error, parse registry.toStateFile = .error error := by
  have inTexts : unwords ["COLLECTION", ""]
      ∈ header :: registry.collections.values.flatMap collectionTexts := by
    refine List.mem_cons_of_mem _ (List.mem_flatMap.mpr ⟨collection, member, ?_⟩)
    simp [collectionTexts, unnamed]
  have inLines := mem_lines_unlines inTexts ⟨by decide, by decide⟩
  obtain ⟨error, failed⟩ := @readLines_of_unreadable 1 { registry := new, current := none } _ _
    inLines readLine_unnamed
  exact ⟨error, by rw [parse, toStateFile_eq, failed]; rfl⟩

/-- A registry is read back from its state file exactly when it can be held. -/
theorem parse_toStateFile_iff {registry : SchemaRegistry} (keyed : registry.Keyed)
    : parse registry.toStateFile = .ok registry ↔ registry.Storable := by
  refine ⟨fun parsed collection member => ?_, parse_toStateFile keyed⟩
  have nonempty : collection.name ≠ "" := by
    intro unnamed
    obtain ⟨error, failed⟩ := parse_unnamed member unnamed
    rw [failed] at parsed
    cases parsed
  obtain ⟨⟨name, found⟩, inEntries, rfl⟩ := List.mem_map.mp member
  obtain ⟨same, solid, keys, indexes⟩ := parse_readable parsed _ inEntries
  dsimp only at same solid indexes
  rw [same] at solid indexes
  exact ⟨⟨nonempty, solid⟩, keys, indexes⟩

/-- A schema made by migrations is read back from its state file exactly when it is plain. -/
theorem parse_toStateFile_iff_plain {statements : List DdlStatement} {registry : SchemaRegistry}
    (applied : applyStatements new statements = .ok registry)
    : parse registry.toStateFile = .ok registry ↔ registry.Plain := by
  have named := applyStatements_named named_new applied
  rw [parse_toStateFile_iff (applyStatements_keyed each_new applied)]
  refine forall₂_congr fun collection member => storable_iff_plain ?_
  obtain ⟨entry, inEntries, rfl⟩ := List.mem_map.mp member
  exact (named entry inEntries).2

def itemsSource : String :=
  "CREATE COLLECTION items KEY id STRING; CREATE INDEX ON items PATH \"meta.theme\" TYPE INT;"

def itemsStatements : List DdlStatement :=
  [.createCollection "items" [("id", .string)], .createIndex "items" "meta.theme" .int]

theorem parse_toStateFile_items
    : ∃ registry,
        parseMigration itemsSource = .ok itemsStatements
        ∧ applyStatements new itemsStatements = .ok registry
        ∧ registry.Plain
        ∧ parse registry.toStateFile = .ok registry := by
  have applied : applyStatements new itemsStatements
      = .ok (new.setCollection "items" ⟨"items", [⟨"id", .string⟩],
          [⟨"items.by_meta_theme", "meta.theme", .int⟩]⟩) := by
    decide +kernel
  exact ⟨_, by decide +kernel, applied, by decide +kernel,
    (parse_toStateFile_iff_plain applied).mpr (by decide +kernel)⟩

def dottedSource : String :=
  "CREATE COLLECTION \"app.items\" KEY id STRING; CREATE INDEX ON \"app.items\" (id);"

def dottedStatements : List DdlStatement :=
  [.createCollection "app.items" [("id", .string)], .createIndex "app.items" "id" .string]

/-- Its index is read back as one of a collection `app` that does not exist. -/
theorem parse_toStateFile_dotted
    : ∃ registry found,
        parseMigration dottedSource = .ok dottedStatements
        ∧ applyStatements new dottedStatements = .ok registry
        ∧ parse registry.toStateFile = .ok found
        ∧ found ≠ registry
        ∧ registry.collections.get "app" = none
        ∧ (found.collections.get "app").isSome := by
  have applied : applyStatements new dottedStatements
      = .ok (new.setCollection "app.items" ⟨"app.items", [⟨"id", .string⟩],
          [⟨"app.items.by_id", "id", .string⟩]⟩) := by
    decide +kernel
  refine ⟨_, (new.setCollection "app" ⟨"app", [], [⟨"app.items.by_id", "id", .string⟩]⟩).setCollection
    "app.items" ⟨"app.items", [⟨"id", .string⟩], []⟩, ?_, applied, ?_, ?_, ?_, ?_⟩
  all_goals decide +kernel

end SchemaRegistry
end Epochs.Ql
