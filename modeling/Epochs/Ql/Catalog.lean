import Epochs.Ql.SchemaState

/-! Indexes as a map from paths to types. A registry keeps a list of indexes named after their
paths with dots replaced, so that two paths may have one name; apart from such paths it behaves
as the map.
-/

namespace Epochs.Ql

open Lib Text

-- The map

/-- What indexes are for: the type of each indexed path, by collection. -/
abbrev Catalog := String → Option (String → Option FieldType)

/-- A statement on the map. It fails on an unknown collection, on a path that is indexed already
and on one that is not indexed.
-/
def Catalog.apply (catalog : Catalog) : DdlStatement → Option Catalog
  | .createCollection name _ =>
    match catalog name with
    | some _ => none
    | none => some (Function.update catalog name (some fun _ => none))
  | .createIndex collection path fieldType => do
    let types ← catalog collection
    match types path with
    | some _ => none
    | none =>
      some (Function.update catalog collection
        (some (Function.update types path (some fieldType))))
  | .dropIndex collection path => do
    let types ← catalog collection
    match types path with
    | none => none
    | some _ =>
      some (Function.update catalog collection (some (Function.update types path none)))

def typeOn (indexes : List IndexDef) (path : String) : Option FieldType :=
  (indexes.find? fun index => index.path = path).map IndexDef.fieldType

namespace SchemaRegistry

def catalog (registry : SchemaRegistry) : Catalog := fun name =>
  (registry.collections.get name).map fun collection => typeOn collection.indexes

/-- A statement on an index whose path shares its name with the path of another index. -/
def Clashes (registry : SchemaRegistry) : DdlStatement → Prop
  | .createCollection _ _ => False
  | .createIndex name path _ | .dropIndex name path =>
    ∃ collection, registry.collections.get name = some collection
      ∧ ∃ index ∈ collection.indexes, index.path ≠ path
        ∧ Text.replace '.' '_' index.path = Text.replace '.' '_' path

-- Names are not repeated

/-- Two indexes of a collection have different names. -/
def Distinct (registry : SchemaRegistry) : Prop :=
  ∀ entry ∈ registry.collections.entries, (entry.2.indexes.map IndexDef.name).Nodup

theorem distinct_iff {registry : SchemaRegistry}
    : registry.Distinct
      ↔ registry.Each fun _ collection => (collection.indexes.map IndexDef.name).Nodup := Iff.rfl

theorem applyStatement_distinct {registry next : SchemaRegistry} {statement : DdlStatement}
    (distinct : registry.Distinct) (applied : applyStatement registry statement = .ok next)
    : next.Distinct := by
  refine Each.applyStatement (distinct_iff.mp distinct) applied (fun _ _ _ => List.nodup_nil) ?_ ?_
  · intro name path fieldType found _ fresh names
    rw [List.map_append, List.nodup_append]
    refine ⟨names, List.nodup_singleton _, ?_⟩
    rintro name member other last rfl
    obtain ⟨index, inside, rfl⟩ := List.mem_map.mp member
    exact fresh index inside (List.mem_singleton.mp last)
  · exact fun name found kept names => names.sublist (List.filter_sublist.map _)

-- Statements on indexes

/-- Indexes of a collection have the same name when their paths do not differ but in dots. -/
theorem indexNameFor_inj {collection first second : String}
    : indexNameFor collection first = indexNameFor collection second
      ↔ replace '.' '_' first = replace '.' '_' second := by
  rw [← String.toList_inj, ← String.toList_inj]
  simp [indexNameFor]

variable {registry : SchemaRegistry} {name : String} {collection : CollectionSchema}

theorem catalog_setCollection (registry : SchemaRegistry) (name : String)
    (collection : CollectionSchema)
    : (registry.setCollection name collection).catalog
      = Function.update registry.catalog name (some (typeOn collection.indexes)) := by
  funext other
  by_cases same : other = name
  · subst same
    simp [catalog, setCollection]
  · rw [Function.update_of_ne same]
    simp [catalog, setCollection, SortedMap.get, SortedMap.insert,
      SortedMap.lookup_insertEntry, Ne.symm same]

variable {indexes : List IndexDef}

theorem typeOn_eq_none {path : String}
    : typeOn indexes path = none ↔ ∀ index ∈ indexes, index.path ≠ path := by
  simp [typeOn]

variable {index : IndexDef}

theorem typeOn_append
    (fresh : typeOn indexes index.path = none)
    : typeOn (indexes ++ [index])
      = Function.update (typeOn indexes) index.path (some index.fieldType) := by
  funext path
  by_cases same : path = index.path
  · subst same
    have none : indexes.find? (fun other => other.path = index.path) = none := by
      simpa [typeOn] using fresh
    simp [typeOn, List.find?_append, none]
  · rw [Function.update_of_ne same]
    simp [typeOn, List.find?_append, Ne.symm same]

theorem typeOn_filter {keep : IndexDef → Bool} {path : String}
    (removes : ∀ index ∈ indexes, keep index = true ↔ index.path ≠ path)
    : typeOn (indexes.filter keep) = Function.update (typeOn indexes) path none := by
  funext other
  by_cases same : other = path
  · subst same
    rw [Function.update_self, typeOn_eq_none]
    intro index member
    exact (removes index (List.mem_filter.mp member).1).mp (List.mem_filter.mp member).2
  · rw [Function.update_of_ne same]
    induction indexes with
    | nil => rfl
    | cons index rest ih =>
      obtain ⟨first, others⟩ := List.forall_mem_cons.mp removes
      have later := ih others
      simp only [typeOn, List.find?_filter] at later ⊢
      by_cases here : index.path = other
      · have kept := first.mpr (here ▸ same)
        simp [kept, here]
      · simpa [here] using later

/-- An index of the collection has the name of an index on the path. -/
def Taken (collection : CollectionSchema) (path : String) : Prop :=
  ∃ index ∈ collection.indexes, replace '.' '_' index.path = replace '.' '_' path

instance (collection : CollectionSchema) (path : String) : Decidable (Taken collection path) :=
  inferInstanceAs (Decidable (∃ index ∈ collection.indexes, _ = _))

structure Holding (registry : SchemaRegistry) (name : String) (collection : CollectionSchema)
    : Prop where
  found : registry.collections.get name = some collection
  own : collection.name = name
  named : ∀ index ∈ collection.indexes, index.name = indexNameFor name index.path
  distinct : (collection.indexes.map IndexDef.name).Nodup

namespace Holding

variable {registry : SchemaRegistry} {name path : String} {collection : CollectionSchema}
  (holding : registry.Holding name collection)
include holding

theorem catalog : registry.catalog name = some (typeOn collection.indexes) := by
  rw [SchemaRegistry.catalog, holding.found]
  rfl

/-- An index has the name of a path when its path differs from it at most in dots. -/
theorem name_eq (member : index ∈ collection.indexes)
    : index.name = indexNameFor name path
      ↔ replace '.' '_' index.path = replace '.' '_' path := by
  rw [holding.named index member, indexNameFor_inj]

/-- Of indexes with one name there is one only. -/
theorem eq_of_replace {first second : IndexDef} (inFirst : first ∈ collection.indexes)
    (inSecond : second ∈ collection.indexes)
    (same : replace '.' '_' first.path = replace '.' '_' second.path)
    : first = second := by
  have sameName : first.name = second.name := by
    rw [holding.named first inFirst, holding.named second inSecond, indexNameFor_inj, same]
  exact List.inj_on_of_nodup_map holding.distinct inFirst inSecond sameName

theorem clashes_iff {statement : DdlStatement}
    (on : (∃ fieldType, statement = .createIndex name path fieldType)
      ∨ statement = .dropIndex name path)
    : registry.Clashes statement
      ↔ ∃ index ∈ collection.indexes, index.path ≠ path
        ∧ replace '.' '_' index.path = replace '.' '_' path := by
  rcases on with ⟨fieldType, rfl⟩ | rfl <;> simp [Clashes, holding.found]

/-- A path that is indexed shares its name with no other; one that is not may share its name, or
have one of its own.
-/
theorem path_cases (path : String)
    : ((∃ fieldType, typeOn collection.indexes path = some fieldType) ∧ Taken collection path
        ∧ ∀ index ∈ collection.indexes, index.path ≠ path
          → replace '.' '_' index.path ≠ replace '.' '_' path)
      ∨ (typeOn collection.indexes path = none
        ∧ (Taken collection path ↔ ∃ index ∈ collection.indexes, index.path ≠ path
          ∧ replace '.' '_' index.path = replace '.' '_' path)) := by
  cases typed : typeOn collection.indexes path with
  | some fieldType =>
    obtain ⟨index, found, -⟩ := Option.map_eq_some_iff.mp typed
    have member := List.mem_of_find?_eq_some found
    obtain rfl : index.path = path := by simpa using List.find?_some found
    refine .inl ⟨⟨_, rfl⟩, ⟨index, member, rfl⟩, fun other inside different same => ?_⟩
    exact different (congrArg IndexDef.path (holding.eq_of_replace inside member same))
  | none =>
    refine .inr ⟨rfl, exists_congr fun index => and_congr_right fun member => ?_⟩
    exact (and_iff_right (typeOn_eq_none.mp typed index member)).symm

/-- An index is made unless one has its name. -/
theorem createIndex_eq (fieldType : FieldType)
    : (applyStatement registry (.createIndex name path fieldType)).toOption
      = if Taken collection path then none
        else some (registry.setCollection name { collection with
          indexes := collection.indexes ++ [{ name := indexNameFor name path, path, fieldType }] })
    := by
  have named : (collection.indexes.any fun index => index.name = indexNameFor name path) = true
      ↔ Taken collection path := by
    rw [List.any_eq_true]
    refine exists_congr fun index => and_congr_right fun member => ?_
    rw [decide_eq_true_eq, holding.name_eq member]
  simp only [applyStatement, holding.found, named]
  split <;> rfl

/-- The indexes of a name are dropped, if there are any. -/
theorem dropIndex_eq
    : (applyStatement registry (.dropIndex name path)).toOption
      = if Taken collection path then
          some (registry.setCollection name { collection with
            indexes := collection.indexes.filter fun index =>
              replace '.' '_' index.path ≠ replace '.' '_' path })
        else none := by
  have kept : (collection.indexes.filter fun index =>
        index.name ≠ indexNameFor name path ∧ index.path ≠ path)
      = collection.indexes.filter fun index =>
        replace '.' '_' index.path ≠ replace '.' '_' path := by
    refine List.filter_congr fun index member => ?_
    rw [decide_eq_decide, Ne, holding.name_eq member]
    refine ⟨And.left, fun different => ⟨different, ?_⟩⟩
    rintro rfl
    exact different rfl
  simp only [applyStatement, holding.found, kept, List.length_filter_eq_length_iff,
    decide_eq_true_eq]
  by_cases taken : Taken collection path
  · rw [if_pos taken, if_neg]
    · rfl
    · obtain ⟨index, member, same⟩ := taken
      exact fun all => all index member same
  · rw [if_neg taken, if_pos]
    · rfl
    · exact fun index member same => taken ⟨index, member, same⟩

end Holding

theorem holding_of_get (named : registry.Named)
    (distinct : registry.Distinct)
    (found : registry.collections.get name = some collection)
    : registry.Holding name collection := by
  obtain ⟨own, names⟩ := named.of_get found
  exact ⟨found, own.symm, own ▸ names, (distinct_iff.mp distinct).of_get found⟩

/-- A statement on a registry is one on the map, unless its path shares a name with another's. -/
theorem catalog_applyStatement (named : registry.Named)
    (distinct : registry.Distinct) (statement : DdlStatement)
    : (applyStatement registry statement).toOption.map catalog = registry.catalog.apply statement
      ↔ ¬ registry.Clashes statement := by
  cases statement with
  | createCollection name keys =>
    refine iff_of_true ?_ id
    simp only [applyStatement, Catalog.apply, catalog]
    cases found : registry.collections.get name with
    | some collection => simp [Except.toOption]
    | none =>
      simp only [Except.toOption, Option.map_some, Option.map_none]
      rw [catalog_setCollection]
      rfl
  | createIndex name path fieldType =>
    cases found : registry.collections.get name with
    | none =>
      refine iff_of_true ?_ (by simp [Clashes, found])
      simp [applyStatement, Catalog.apply, catalog, found, Except.toOption]
    | some collection =>
      have holding := holding_of_get named distinct found
      rw [holding.clashes_iff (.inl ⟨fieldType, rfl⟩), holding.createIndex_eq, Catalog.apply,
        holding.catalog, Option.bind_eq_bind, Option.bind_some]
      rcases holding.path_cases path with ⟨⟨_, typed⟩, taken, alone⟩ | ⟨fresh, shared⟩
      · refine iff_of_true ?_ (by
          rintro ⟨index, member, different, same⟩
          exact alone index member different same)
        rw [if_pos taken, typed]
        rfl
      · rw [fresh, ← shared]
        split
        · rename_i taken
          exact iff_of_false (by simp) (not_not.mpr taken)
        · rename_i free
          refine iff_of_true ?_ free
          dsimp only
          rw [Option.map_some, catalog_setCollection]
          exact congrArg
            (fun types => some (Function.update registry.catalog name (some types)))
            (typeOn_append fresh)
  | dropIndex name path =>
    cases found : registry.collections.get name with
    | none =>
      refine iff_of_true ?_ (by simp [Clashes, found])
      simp [applyStatement, Catalog.apply, catalog, found, Except.toOption]
    | some collection =>
      have holding := holding_of_get named distinct found
      rw [holding.clashes_iff (.inr rfl), holding.dropIndex_eq, Catalog.apply, holding.catalog,
        Option.bind_eq_bind, Option.bind_some]
      rcases holding.path_cases path with ⟨⟨_, typed⟩, taken, alone⟩ | ⟨fresh, shared⟩
      · refine iff_of_true ?_ (by
          rintro ⟨index, member, different, same⟩
          exact alone index member different same)
        rw [if_pos taken, typed]
        dsimp only
        rw [Option.map_some, catalog_setCollection, typeOn_filter]
        intro other inside
        rw [decide_eq_true_eq]
        exact ⟨fun different same => different (by rw [same]), alone other inside⟩
      · rw [fresh, ← shared]
        split
        · rename_i taken
          exact iff_of_false (by simp) (not_not.mpr taken)
        · rename_i free
          exact iff_of_true rfl free

theorem applyStatements_distinct {last : SchemaRegistry} {statements : List DdlStatement}
    (distinct : registry.Distinct) (applied : applyStatements registry statements = .ok last)
    : last.Distinct :=
  applyStatements_invariant (fun _ _ _ => applyStatement_distinct) distinct applied

/-- In every registry that statements make of the empty one, the next statement does to the map
from paths to types what it should exactly when its path shares its name with no other path.
-/
theorem indexes_keyed_by_path_iff {statements : List DdlStatement} {registry : SchemaRegistry}
    (applied : applyStatements new statements = .ok registry) (statement : DdlStatement)
    : (applyStatement registry statement).toOption.map catalog = registry.catalog.apply statement
      ↔ ¬ registry.Clashes statement :=
  catalog_applyStatement (applyStatements_named named_new applied)
    (applyStatements_distinct (distinct_iff.mpr each_new) applied) statement

/-- Text before the last separator. -/
theorem eq_of_last {separator : Char} {first second left right : List Char}
    (inLeft : separator ∉ left) (inRight : separator ∉ right)
    (same : first ++ separator :: left = second ++ separator :: right)
    : first = second := by
  rcases List.append_eq_append_iff.mp same with ⟨more, rfl, tail⟩ | ⟨more, rfl, tail⟩
  · cases more with
    | nil => exact (List.append_nil _).symm
    | cons char more =>
      obtain ⟨-, rfl⟩ := List.cons.inj tail
      exact absurd (List.mem_append_right _ List.mem_cons_self) inLeft
  · cases more with
    | nil => exact List.append_nil _
    | cons char more =>
      obtain ⟨-, rfl⟩ := List.cons.inj tail
      exact absurd (List.mem_append_right _ List.mem_cons_self) inRight

/-- The last dot of an index name stands after its collection, since the path has none there. -/
theorem collection_eq_of_indexNameFor {first second path other : String}
    (same : indexNameFor first path = indexNameFor second other)
    : first = second := by
  have dotless (path : String) : '.' ∉ 'b' :: 'y' :: '_' :: (replace '.' '_' path).toList := by
    simp only [replace, String.toList_ofList, List.mem_cons, List.mem_map, not_or, not_exists, not_and]
    refine ⟨by decide, by decide, by decide, fun char _ => ?_⟩
    split
    · decide
    · assumption
  have chars (collection path : String) : (indexNameFor collection path).toList
      = collection.toList ++ '.' :: 'b' :: 'y' :: '_' :: (replace '.' '_' path).toList := by
    simp [indexNameFor]
  have texts := congrArg String.toList same
  rw [chars, chars] at texts
  exact String.toList_inj.mp (eq_of_last (dotless _) (dotless _) texts)

/-- In every registry that statements make of the empty one, no two indexes have one name, whatever
their collections.
-/
theorem index_names_nodup {statements : List DdlStatement} {registry : SchemaRegistry}
    (applied : applyStatements new statements = .ok registry)
    : (registry.allIndexes.map IndexDef.name).Nodup := by
  have named := applyStatements_named named_new applied
  have distinct := applyStatements_distinct (distinct_iff.mpr each_new) applied
  rw [allIndexes, SortedMap.values, List.flatMap_map, List.map_flatMap, List.nodup_flatMap]
  refine ⟨distinct, registry.collections.sorted.imp_of_mem ?_⟩
  intro first second inFirst inSecond apart name fromFirst fromSecond
  obtain ⟨index, inside, rfl⟩ := List.mem_map.mp fromFirst
  obtain ⟨other, otherInside, same⟩ := List.mem_map.mp fromSecond
  obtain ⟨key, names⟩ := named first inFirst
  obtain ⟨otherKey, otherNames⟩ := named second inSecond
  rw [names index inside, otherNames other otherInside, ← key, ← otherKey] at same
  exact ne_of_gt apart (collection_eq_of_indexNameFor same)

def pathStatements : List DdlStatement :=
  [.createCollection "items" [("id", .string)], .createIndex "items" "a.b" .string]

def pathed : SchemaRegistry :=
  new.setCollection "items"
    { name := "items"
      primaryKey := [{ path := "id", fieldType := .string }]
      indexes := [{ name := "items.by_a_b", path := "a.b", fieldType := .string }] }

/-- Two collections, of which one is named like an index of the other. -/
def twoStatements : List DdlStatement :=
  [.createCollection "items" [("id", .string)], .createCollection "items.by_a" [("id", .string)],
    .createIndex "items" "a.by.b" .string, .createIndex "items" "id" .string,
    .createIndex "items.by_a" "b" .int, .createIndex "items.by_a" "id" .string]

theorem index_names_nodup_two
    : ∃ registry, applyStatements new twoStatements = .ok registry
        ∧ registry.allIndexes.map IndexDef.name
          = ["items.by_a_by_b", "items.by_id", "items.by_a.by_b", "items.by_a.by_id"]
        ∧ (registry.allIndexes.map IndexDef.name).Nodup := by
  have names : (applyStatements new twoStatements).toOption.map
        (fun registry => registry.allIndexes.map IndexDef.name)
      = some ["items.by_a_by_b", "items.by_id", "items.by_a.by_b", "items.by_a.by_id"] := by
    decide +kernel
  cases applied : applyStatements new twoStatements with
  | error error =>
    rw [applied] at names
    cases names
  | ok registry =>
    rw [applied] at names
    exact ⟨registry, rfl, Option.some.inj names, index_names_nodup applied⟩

/-- An index on a path of another name is made as on the map. -/
theorem indexes_keyed_by_path_color
    : applyStatements new pathStatements = .ok pathed
      ∧ (applyStatement pathed (.createIndex "items" "color" .int)).toOption.map catalog
        = pathed.catalog.apply (.createIndex "items" "color" .int) := by
  have applied : applyStatements new pathStatements = .ok pathed := by decide +kernel
  refine ⟨applied, (indexes_keyed_by_path_iff applied _).mpr ?_⟩
  rintro ⟨collection, found, index, member, -, same⟩
  have here : pathed.collections.get "items" = some
      { name := "items"
        primaryKey := [{ path := "id", fieldType := .string }]
        indexes := [{ name := "items.by_a_b", path := "a.b", fieldType := .string }] } := by
    decide +kernel
  cases here.symm.trans found
  cases List.mem_singleton.mp member
  exact absurd same (by decide +kernel)

/-- No index is on the path `a_b`, yet it cannot be made beside the one on `a.b`, and dropping it
drops that one.
-/
theorem indexes_not_keyed_by_path
    : applyStatements new pathStatements = .ok pathed
      ∧ pathed.catalog "items" = some (typeOn [⟨"items.by_a_b", "a.b", .string⟩])
      ∧ typeOn [⟨"items.by_a_b", "a.b", .string⟩] "a_b" = none
      ∧ (applyStatement pathed (.createIndex "items" "a_b" .string)).toOption = none
      ∧ ((applyStatement pathed (.dropIndex "items" "a_b")).toOption.map allIndexes) = some [] := by
  refine ⟨by decide +kernel, ?_, by decide, by decide +kernel, by decide +kernel⟩
  have here : pathed.collections.get "items" = some
      ⟨"items", [⟨"id", .string⟩], [⟨"items.by_a_b", "a.b", .string⟩]⟩ := by
    decide +kernel
  rw [catalog, here]
  rfl

end SchemaRegistry
end Epochs.Ql
