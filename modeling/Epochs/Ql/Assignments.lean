import Epochs.Ql.Matches
import Epochs.Ql.Runs
import Epochs.Store.Histories

/-! Assignments of commits to the nodes of a pattern, which is nodes with edges in between, and rows
as such assignments. Rows that are extended by one node are assignments for one node more.
-/

namespace Epochs.Ql.Engine

open Lib DiskStore

-- Nodes with edges in between

def pathElements (first : NodePattern) (steps : List (EdgePattern × NodePattern))
    : List PatternElement :=
  .node first :: steps.flatMap fun step => [.edge step.1, .node step.2]

def nodesOf (first : NodePattern) (steps : List (EdgePattern × NodePattern)) : List NodePattern :=
  first :: steps.map Prod.snd

def nameAt (place : Nat) (node : NodePattern) : String := node.var.getD s!"_{2 * place}"

def namesOf (first : NodePattern) (steps : List (EdgePattern × NodePattern)) : List String :=
  (nodesOf first steps).mapIdx nameAt

section Names

variable {first node : NodePattern} {edge : EdgePattern}
  {done steps rest : List (EdgePattern × NodePattern)}

theorem pathElements_append
    : pathElements first (done ++ rest)
      = pathElements first done ++ rest.flatMap fun step => [.edge step.1, .node step.2] := by
  simp [pathElements]

theorem length_pathElements : (pathElements first steps).length = 2 * steps.length + 1 := by
  induction steps with
  | nil => rfl
  | cons step rest ih =>
    simp only [pathElements, List.flatMap_cons, List.length_cons, List.length_append,
      List.length_nil] at ih ⊢
    omega

theorem length_nodesOf : (nodesOf first steps).length = steps.length + 1 := by
  simp [nodesOf]

theorem length_namesOf : (namesOf first steps).length = steps.length + 1 := by
  simp [namesOf, nodesOf]

theorem nodesOf_concat
    : nodesOf first (done ++ [(edge, node)]) = nodesOf first done ++ [node] := by
  simp [nodesOf]

theorem namesOf_concat
    : namesOf first (done ++ [(edge, node)])
      = namesOf first done ++ [nameAt (done.length + 1) node] := by
  rw [namesOf, nodesOf_concat, List.mapIdx_concat, length_nodesOf, namesOf]

/-- The name of the last node, as the next step looks it up. -/
theorem exists_lastName (first : NodePattern) (done : List (EdgePattern × NodePattern))
    : ∃ last, (pathElements first done)[2 * done.length]? = some (.node last)
        ∧ (namesOf first done)[done.length]?
          = some (patternNodeVar (.node last) (2 * done.length)) := by
  rcases List.eq_nil_or_concat done with rfl | ⟨front, ⟨edge, node⟩, rfl⟩
  · exact ⟨first, rfl, rfl⟩
  · rw [List.concat_eq_append]
    refine ⟨node, ?_, ?_⟩
    · rw [pathElements_append, List.getElem?_append_right (by
        rw [length_pathElements, List.length_append, List.length_singleton]; omega),
        length_pathElements, List.length_append, List.length_singleton,
        show 2 * (front.length + 1) - (2 * front.length + 1) = 1 by omega]
      rfl
    · have place : (front ++ [(edge, node)]).length = (namesOf first front).length := by
        rw [length_namesOf, List.length_append, List.length_singleton]
      rw [place, namesOf_concat, List.getElem?_concat_length, length_namesOf]
      rfl

theorem madeName_injective {number other : Nat} (same : s!"_{number}" = s!"_{other}")
    : number = other := by
  have digits : Nat.toDigits 10 number = Nat.toDigits 10 other := by
    refine String.ofList_injective ?_
    simpa [Nat.repr_eq_ofList_toDigits] using same
  calc
    number = Nat.ofDigitChars 10 (Nat.toDigits 10 number) 0 := Nat.ofDigitChars_ten_toDigits.symm
    _ = Nat.ofDigitChars 10 (Nat.toDigits 10 other) 0 := by rw [digits]
    _ = other := Nat.ofDigitChars_ten_toDigits

def Plain (nodes : List NodePattern) : Prop :=
  ∀ node ∈ nodes, ∀ number : Nat, node.var ≠ some s!"_{number}"

/-- Two nodes have the same name if they have the same variable. -/
theorem nameAt_eq_iff {nodes : List NodePattern} (plain : Plain nodes) {first second : NodePattern}
    (here : first ∈ nodes) (there : second ∈ nodes) {place other : Nat} (apart : place ≠ other)
    : nameAt place first = nameAt other second
      ↔ ∃ var, first.var = some var ∧ second.var = some var := by
  unfold nameAt
  have plainFirst := plain first here
  have plainSecond := plain second there
  cases firstVar : first.var with
  | none =>
    cases secondVar : second.var with
    | none =>
      simp only [Option.getD_none, reduceCtorEq, false_and, exists_false, iff_false]
      intro same
      exact apart (by have := madeName_injective same; omega)
    | some var =>
      simp only [Option.getD_none, Option.getD_some, reduceCtorEq, false_and, exists_false,
        iff_false]
      rintro rfl
      exact plainSecond _ secondVar
  | some var =>
    cases secondVar : second.var with
    | none =>
      simp only [Option.getD_none, Option.getD_some, reduceCtorEq, and_false, exists_false,
        iff_false]
      rintro rfl
      exact plainFirst _ firstVar
    | some var' =>
      simp only [Option.getD_some, Option.some.injEq, exists_eq_left']
      exact eq_comm

end Names

-- Assignments

/-- Commits for the nodes of a path: the first among those that are tried, each with what its node
asks for, each where the edge leads from the one before it, and one for each variable.
-/
structure IsAssignment (tried : Hash → Prop) (passes : NodePattern → Hash → Prop)
    (leads : EdgePattern → Hash → Hash → Prop) (first : NodePattern)
    (steps : List (EdgePattern × NodePattern)) (hashes : List Hash) : Prop where
  length_eq : hashes.length = steps.length + 1
  starts : ∀ hash, hashes.head? = some hash → tried hash
  fits : ∀ node hash, (node, hash) ∈ (nodesOf first steps).zip hashes → passes node hash
  follows : ∀ (place : Nat) (step : EdgePattern × NodePattern) (source target : Hash),
    steps[place]? = some step → hashes[place]? = some source → hashes[place + 1]? = some target
    → leads step.1 source target
  agrees : ∀ node hash node' hash' var, (node, hash) ∈ (nodesOf first steps).zip hashes
    → (node', hash') ∈ (nodesOf first steps).zip hashes
    → node.var = some var → node'.var = some var → hash = hash'

/-- An assignment in which all nodes of one name, given or made from a position, have one commit. -/
structure IsMatch (tried : Hash → Prop) (passes : NodePattern → Hash → Prop)
    (leads : EdgePattern → Hash → Hash → Prop) (first : NodePattern)
    (steps : List (EdgePattern × NodePattern)) (hashes : List Hash) : Prop
    extends IsAssignment tried passes leads first steps hashes where
  named : ∀ name hash hash', (name, hash) ∈ (namesOf first steps).zip hashes
    → (name, hash') ∈ (namesOf first steps).zip hashes → hash = hash'

section Assignments

variable {tried : Hash → Prop} {passes : NodePattern → Hash → Prop}
  {leads : EdgePattern → Hash → Hash → Prop} {first node : NodePattern} {edge : EdgePattern}
  {done steps : List (EdgePattern × NodePattern)}

theorem isAssignment_nil {hashes : List Hash}
    : IsAssignment tried passes leads first [] hashes
      ↔ ∃ hash, hashes = [hash] ∧ tried hash ∧ passes first hash := by
  constructor
  · intro assigned
    obtain ⟨hash, rfl⟩ := List.length_eq_one_iff.mp assigned.length_eq
    exact ⟨hash, rfl, assigned.starts hash rfl, assigned.fits first hash (by simp [nodesOf])⟩
  · rintro ⟨hash, rfl, starts, fits⟩
    refine ⟨rfl, by simpa using starts, by simpa [nodesOf] using fits, by simp, ?_⟩
    intro node _ node' _ var member member' _ _
    cases List.mem_singleton.mp member
    cases List.mem_singleton.mp member'
    rfl

theorem getElem?_concat_eq_some {α : Type} {items : List α} {last item : α} {place : Nat}
    : (items ++ [last])[place]? = some item
      ↔ items[place]? = some item ∨ place = items.length ∧ last = item := by
  rw [List.getElem?_append]
  split
  · rename_i inside
    exact ⟨.inl, fun found => found.resolve_right fun ⟨at_, _⟩ => absurd at_ (Nat.ne_of_lt inside)⟩
  · rename_i outside
    rw [List.getElem?_eq_none (Nat.le_of_not_lt outside), List.getElem?_singleton]
    simp only [reduceCtorEq, false_or]
    split
    · simp only [Option.some.injEq, iff_and_self]
      omega
    · simp only [reduceCtorEq, false_iff, not_and]
      omega

theorem mem_zip_iff {α β : Type} {items : List α} {others : List β} {item : α} {other : β}
    : (item, other) ∈ items.zip others
      ↔ ∃ place : Nat, items[place]? = some item ∧ others[place]? = some other := by
  simp only [List.mem_iff_getElem?, List.getElem?_zip_eq_some]

theorem exists_right {α β : Type} {related : α → β → Prop} {items : List α} {others : List β}
    (all : List.Forall₂ related items others) {item : α} (member : item ∈ items)
    : ∃ other ∈ others, related item other := by
  induction all with
  | nil => cases member
  | cons first _ ih =>
    rcases List.mem_cons.mp member with rfl | later
    · exact ⟨_, List.mem_cons_self, first⟩
    · obtain ⟨other, inRest, here⟩ := ih later
      exact ⟨other, List.mem_cons_of_mem _ inRest, here⟩

theorem exists_left {α β : Type} {related : α → β → Prop} {items : List α} {others : List β}
    (all : List.Forall₂ related items others) {other : β} (member : other ∈ others)
    : ∃ item ∈ items, related item other :=
  exists_right all.flip member

/-- One step more: a commit for one node more. -/
theorem isAssignment_concat {hashes : List Hash}
    : IsAssignment tried passes leads first (done ++ [(edge, node)]) hashes
      ↔ ∃ front hash source, hashes = front ++ [hash]
          ∧ IsAssignment tried passes leads first done front
          ∧ front[done.length]? = some source ∧ leads edge source hash ∧ passes node hash
          ∧ ∀ other hash' var, (other, hash') ∈ (nodesOf first done).zip front
            → other.var = some var → node.var = some var → hash' = hash := by
  have zipped {front : List Hash} {hash : Hash} (length_eq : front.length = done.length + 1)
      : (nodesOf first (done ++ [(edge, node)])).zip (front ++ [hash])
        = (nodesOf first done).zip front ++ [(node, hash)] := by
    rw [nodesOf_concat, List.zip_append (by rw [length_nodesOf, length_eq])]
    rfl
  have headed {front : List Hash} {hash : Hash} (length_eq : front.length = done.length + 1)
      : (front ++ [hash]).head? = front.head? := by
    cases front with
    | nil => simp at length_eq
    | cons first front => rfl
  constructor
  · intro assigned
    obtain ⟨front, hash, rfl⟩ : ∃ front hash, hashes = front ++ [hash] := by
      rcases List.eq_nil_or_concat hashes with rfl | ⟨front, hash, rfl⟩
      · simpa using assigned.length_eq
      · exact ⟨front, hash, List.concat_eq_append⟩
    have length_eq : front.length = done.length + 1 := by simpa using assigned.length_eq
    obtain ⟨starts, fits, follows, agrees⟩ :=
      (⟨assigned.starts, assigned.fits, assigned.follows, assigned.agrees⟩ : _ ∧ _ ∧ _ ∧ _)
    rw [headed length_eq] at starts
    rw [zipped length_eq] at fits agrees
    simp only [getElem?_concat_eq_some] at follows
    obtain ⟨source, here⟩ : ∃ source, front[done.length]? = some source :=
      ⟨_, List.getElem?_eq_getElem (by omega)⟩
    refine ⟨front, hash, source, rfl, ⟨length_eq, starts, fun _ _ member => fits _ _ (by simp [member]),
      fun place step source' target at_ here' next => follows place step source' target (.inl at_)
        (.inl here') (.inl next),
      fun _ _ _ _ var member member' => agrees _ _ _ _ var (by simp [member]) (by simp [member'])⟩,
      here, ?_, fits node hash (by simp), fun other hash' var member named same => ?_⟩
    · exact follows done.length (edge, node) source hash (.inr ⟨rfl, rfl⟩) (.inl here)
        (.inr ⟨length_eq.symm, rfl⟩)
    · exact agrees other hash' node hash var (by simp [member]) (by simp) named same
  · rintro ⟨front, hash, source, rfl, assigned, here, leads_, fits, shared⟩
    have length_eq := assigned.length_eq
    refine ⟨by simp [length_eq], ?_, ?_, ?_, ?_⟩
    · rw [headed length_eq]
      exact assigned.starts
    · rw [zipped length_eq]
      intro other hash' member
      rcases List.mem_append.mp member with old | new
      · exact assigned.fits other hash' old
      · cases List.mem_singleton.mp new
        exact fits
    · simp only [getElem?_concat_eq_some]
      rintro place step source' target (old | ⟨rfl, rfl⟩) from_ next
      · have := (List.getElem?_eq_some_iff.mp old).1
        exact assigned.follows place step source' target old
          (from_.resolve_right (by omega)) (next.resolve_right (by omega))
      · cases here.symm.trans (from_.resolve_right (by omega))
        obtain ⟨-, rfl⟩ := next.resolve_left (by rw [List.getElem?_eq_none (by omega)]; simp)
        exact leads_
    · rw [zipped length_eq]
      intro other hash' other' hash'' var member member' named named'
      rcases List.mem_append.mp member with old | new
      · rcases List.mem_append.mp member' with old' | new'
        · exact assigned.agrees _ _ _ _ var old old' named named'
        · cases List.mem_singleton.mp new'
          exact shared other hash' var old named named'
      · cases List.mem_singleton.mp new
        rcases List.mem_append.mp member' with old' | new'
        · exact (shared other' hash'' var old' named' named).symm
        · cases List.mem_singleton.mp new'
          rfl

/-- Without variables of the form of a made name, one commit for each variable is one for each
name.
-/
theorem isMatch_of_plain (plain : Plain (nodesOf first steps)) {hashes : List Hash}
    : IsMatch tried passes leads first steps hashes
      ↔ IsAssignment tried passes leads first steps hashes := by
  refine ⟨IsMatch.toIsAssignment, fun assigned => ⟨assigned, fun name hash hash' here there => ?_⟩⟩
  obtain ⟨place, named, read⟩ := mem_zip_iff.mp here
  obtain ⟨place', named', read'⟩ := mem_zip_iff.mp there
  by_cases same : place = place'
  · subst same
    exact Option.some.inj (read.symm.trans read')
  · rw [namesOf, List.getElem?_mapIdx, Option.map_eq_some_iff] at named named'
    obtain ⟨node, at_, rfl⟩ := named
    obtain ⟨node', at', shared⟩ := named'
    obtain ⟨var, isVar', isVar⟩ := (nameAt_eq_iff plain (List.mem_of_getElem? at')
      (List.mem_of_getElem? at_) (Ne.symm same)).mp shared
    exact assigned.agrees node hash node' hash' var (mem_zip_iff.mpr ⟨place, at_, read⟩)
      (mem_zip_iff.mpr ⟨place', at', read'⟩) isVar isVar'

end Assignments

-- Documents

section Documents

variable [Blake3] {store : DiskStore} {hash : Hash} {fuel larger : Nat}

theorem readBound_fuel (enough : fuel ≤ larger)
    : Run.Follows Eq (readBound fuel hash) (readBound larger hash) := by
  refine .bind (.same _) fun commit => .bind (.mapErr ?_ _) fun entries => .pure _
  unfold DiskStore.hamtEntries
  split
  · exact .pure _
  · rintro store _ entries last rfl read
    obtain ⟨traced, ran, rfl⟩ := Run.zoom_eq_ok.mp read
    obtain ⟨_, ran', rfl⟩ :=
      PersistentHamt.collectEntries_fuel enough _ _ _ _ _ _ rfl ran
    exact ⟨_, Run.zoom_eq_ok.mpr ⟨_, ran', rfl⟩, rfl⟩

variable {bound : BoundCommit}

theorem shownAt_fuel (shown : shownAt fuel store hash = some bound)
    (enough : fuel ≤ larger)
    : shownAt larger store hash = some bound := by
  obtain ⟨_, read, -⟩ := readBound_fuel enough _ _ _ _ rfl (Run.eq_ok_of_valueOf shown)
  rw [shownAt, read]
  rfl

/-- A commit with its document, as a store shows it to a run that is long enough. -/
def Shown (store : DiskStore) (hash : Hash) (bound : BoundCommit) : Prop :=
  ∃ fuel, shownAt fuel store hash = some bound

theorem Shown.unique {other : BoundCommit} (shown : Shown store hash bound)
    (shown' : Shown store hash other)
    : bound = other := by
  obtain ⟨fuel, first⟩ := shown
  obtain ⟨fuel', second⟩ := shown'
  exact Option.some.inj ((shownAt_fuel first (Nat.le_max_left fuel fuel')).symm.trans
    (shownAt_fuel second (Nat.le_max_right fuel fuel')))

def Passes (store : DiskStore) (node : NodePattern) (hash : Hash) : Prop :=
  ∃ bound, Shown store hash bound ∧ fits node bound = true

theorem passes_iff {node : NodePattern}
    (shown : shownAt fuel store hash = some bound)
    : Passes store node hash ↔ fitting fuel store node hash = some bound := by
  rw [fitting, Option.filter_eq_some_iff]
  constructor
  · rintro ⟨other, shown', fit⟩
    cases shown'.unique ⟨fuel, shown⟩
    exact ⟨shown, fit⟩
  · rintro ⟨-, fit⟩
    exact ⟨bound, ⟨fuel, shown⟩, fit⟩

end Documents

-- Rows as assignments

/-- A row binds some variables and no others. -/
def BindsExactly (names : String → Prop) (row : Bindings) : Prop :=
  ∀ name, (hashAt row name).isSome ↔ names name

/-- Rows that are some assignments of commits to names, each of them once. They bind no other name,
and each commit with its own document.
-/
structure Lists [Blake3] (store : DiskStore) (names : List String) (valid : List Hash → Prop)
    (rows : List Bindings) : Prop where
  once : (rows.map fun row => names.map (hashAt row)).Nodup
  mem_iff : ∀ hashes, (∃ row ∈ rows, names.map (hashAt row) = hashes.map some) ↔ valid hashes
  binds : ∀ row ∈ rows, BindsExactly (· ∈ names) row
  shown : ∀ row ∈ rows, ∀ name bound, AssocMap.lookup name row = some bound
    → Shown store bound.hash bound

variable {names : List String}

theorem Lists.congr [Blake3] {store : DiskStore}
    {valid valid' : List Hash → Prop} {rows : List Bindings} (lists : Lists store names valid rows)
    (same : ∀ hashes, valid hashes ↔ valid' hashes)
    : Lists store names valid' rows :=
  ⟨lists.once, fun hashes => (lists.mem_iff hashes).trans (same hashes), lists.binds, lists.shown⟩

variable {row target : Bindings}

theorem agreeing_eq_some {var : String} {bound : BoundCommit}
    : agreeing var row bound = some target
      ↔ target = AssocMap.insert var bound row ∧ ∀ hash, hashAt row var = some hash → hash = bound.hash := by
  unfold agreeing hashAt
  cases AssocMap.lookup var row with
  | none => simp [eq_comm]
  | some existing =>
    by_cases same : existing.hash = bound.hash
    · simp [same, eq_comm]
    · simp [same]

/-- A row extended by a commit binds its variable too. -/
theorem hashAt_agreeing {var : String} {bound : BoundCommit}
    (agrees : agreeing var row bound = some target) (name : String)
    : (hashAt target name).isSome ↔ (hashAt row name).isSome ∨ var = name := by
  obtain ⟨rfl, -⟩ := agreeing_eq_some.mp agrees
  rw [hashAt, AssocMap.lookup_insert]
  by_cases same : var = name
  · simp [same]
  · simp [same, hashAt]

theorem reads_of_agreeing {var : String}
    {bound : BoundCommit} (binds : BindsExactly (· ∈ names) row)
    (agrees : agreeing var row bound = some target)
    : (names ++ [var]).map (hashAt target) = names.map (hashAt row) ++ [some bound.hash] := by
  obtain ⟨rfl, same⟩ := agreeing_eq_some.mp agrees
  rw [List.map_append, List.map_singleton]
  congr 1
  · refine List.map_congr_left fun name member => ?_
    rw [hashAt, AssocMap.lookup_insert]
    split
    · rename_i here
      subst here
      obtain ⟨hash, held⟩ := Option.isSome_iff_exists.mp ((binds var).mpr member)
      rw [held, same hash held, Option.map_some]
    · rfl
  · rw [hashAt, AssocMap.lookup_insert_self, Option.map_some]

theorem hashAt_of_reads {hashes : List Hash}
    (reads : names.map (hashAt row) = hashes.map some) {place : Nat} {name : String}
    (here : names[place]? = some name)
    : hashAt row name = hashes[place]? := by
  have same := congrArg (fun list => list[place]?) reads
  simp only [List.getElem?_map, here, Option.map_some] at same
  cases found : hashes[place]? with
  | none => simp [found] at same
  | some hash => simpa [found] using same

theorem exists_reads (binds : BindsExactly (· ∈ names) row)
    : ∃ hashes : List Hash, names.map (hashAt row) = hashes.map some := by
  have bound : ∀ name ∈ names, (hashAt row name).isSome := fun name member => (binds name).mpr member
  clear binds
  induction names with
  | nil => exact ⟨[], rfl⟩
  | cons name rest ih =>
    obtain ⟨here, others⟩ := List.forall_mem_cons.mp bound
    obtain ⟨hash, held⟩ := Option.isSome_iff_exists.mp here
    obtain ⟨hashes, reads⟩ := ih others
    exact ⟨hash :: hashes, by rw [List.map_cons, List.map_cons, held, reads]⟩

/-- What is read from extensions of distinct rows is distinct. -/
theorem nodup_map_flatMap {α β γ δ : Type} {rows : List α} {extend : α → List β} {read : α → γ}
    {key : β → δ} {front : δ → γ} (once : (rows.map read).Nodup)
    (each : ∀ row ∈ rows, ((extend row).map key).Nodup)
    (back : ∀ row ∈ rows, ∀ target ∈ extend row, front (key target) = read row)
    : ((rows.flatMap extend).map key).Nodup := by
  rw [List.map_flatMap, List.nodup_flatMap]
  refine ⟨each, List.Pairwise.imp_of_mem ?_ (List.pairwise_map.mp once)⟩
  intro first second here there differ
  refine List.disjoint_left.mpr fun value member member' => ?_
  obtain ⟨target, in_, rfl⟩ := List.mem_map.mp member
  obtain ⟨target', in', same⟩ := List.mem_map.mp member'
  exact differ (by rw [← back first here target in_, ← back second there target' in', same])

section Extending

variable [Blake3] {store : DiskStore} {fuel : Nat} {node : NodePattern} {var : String}
  {names : List String} {valid : List Hash → Prop} {rows : List Bindings}
  {candidates : Bindings → List Hash} {option : List Hash → Hash → Prop}

def grown (fuel : Nat) (store : DiskStore) (node : NodePattern) (var : String)
    (candidates : Bindings → List Hash) (row : Bindings) : List Bindings :=
  (candidates row).filterMap fun hash => (fitting fuel store node hash).bind (agreeing var row)

theorem mem_grown
    : target ∈ grown fuel store node var candidates row
      ↔ ∃ bound, bound.hash ∈ candidates row ∧ fitting fuel store node bound.hash = some bound
          ∧ agreeing var row bound = some target := by
  simp only [grown, List.mem_filterMap, Option.bind_eq_some_iff]
  constructor
  · rintro ⟨hash, member, bound, fit, agrees⟩
    obtain rfl := hash_of_fitting fit
    exact ⟨bound, member, fit, agrees⟩
  · rintro ⟨bound, member, fit, agrees⟩
    exact ⟨bound.hash, member, bound, fit, agrees⟩

/-- The extensions of a row end in distinct commits. -/
theorem nodup_grown (binds : BindsExactly (· ∈ names) row)
    (distinct : (candidates row).Nodup)
    : ((grown fuel store node var candidates row).map
        fun target => (names ++ [var]).map (hashAt target)).Nodup := by
  rw [grown, List.map_filterMap]
  refine List.Nodup.filterMap (fun hash other read here there => ?_) distinct
  obtain ⟨target, found, rfl⟩ := Option.map_eq_some_iff.mp here
  obtain ⟨target', found', same⟩ := Option.map_eq_some_iff.mp there
  obtain ⟨bound, fit, agrees⟩ := Option.bind_eq_some_iff.mp found
  obtain ⟨bound', fit', agrees'⟩ := Option.bind_eq_some_iff.mp found'
  rw [reads_of_agreeing binds agrees, reads_of_agreeing binds agrees'] at same
  have hashes := Option.some.inj (List.singleton_inj.mp (List.append_cancel_left same))
  rw [← hash_of_fitting fit, ← hash_of_fitting fit', hashes]

def Extended (option : List Hash → Hash → Prop) (passes : Hash → Prop) (names : List String)
    (var : String) (valid : List Hash → Prop) (hashes : List Hash) : Prop :=
  ∃ front hash, hashes = front ++ [hash] ∧ valid front ∧ option front hash ∧ passes hash
    ∧ ∀ other, (var, other) ∈ names.zip front → other = hash

/-- The candidates of each row are shown, and are the commits open to its assignment. -/
structure Offers (fuel : Nat) (store : DiskStore) (names : List String) (rows : List Bindings)
    (candidates : Bindings → List Hash) (option : List Hash → Hash → Prop) : Prop where
  distinct : ∀ row ∈ rows, (candidates row).Nodup
  shown : ∀ row ∈ rows, ∀ hash ∈ candidates row, (shownAt fuel store hash).isSome
  mem_iff : ∀ row ∈ rows, ∀ front, names.map (hashAt row) = front.map some
    → ∀ hash, hash ∈ candidates row ↔ option front hash

theorem Lists.mem_grown_iff (lists : Lists store names valid rows)
    (offers : Offers fuel store names rows candidates option) (hashes : List Hash)
    : (∃ target ∈ rows.flatMap (grown fuel store node var candidates),
        (names ++ [var]).map (hashAt target) = hashes.map some)
      ↔ Extended option (Passes store node) names var valid hashes := by
  constructor
  · rintro ⟨target, member, reads⟩
    obtain ⟨row, here, member⟩ := List.mem_flatMap.mp member
    obtain ⟨bound, offered, fit, agrees⟩ := mem_grown.mp member
    rw [reads_of_agreeing (lists.binds row here) agrees] at reads
    obtain ⟨front, rest, rfl, readsFront, readsRest⟩ := List.append_eq_map_iff.mp reads
    obtain ⟨hash, rfl, same⟩ := List.map_eq_singleton_iff.mp readsRest
    cases same
    refine ⟨front, bound.hash, rfl, (lists.mem_iff front).mp ⟨row, here, readsFront.symm⟩,
      (offers.mem_iff row here front readsFront.symm _).mp offered,
      (passes_iff (Option.filter_eq_some_iff.mp fit).1).mpr fit, fun other member => ?_⟩
    obtain ⟨i, named, read⟩ := mem_zip_iff.mp member
    exact (agreeing_eq_some.mp agrees).2 other ((hashAt_of_reads readsFront.symm named).trans read)
  · rintro ⟨front, hash, rfl, held, open_, passes, shared⟩
    obtain ⟨row, here, reads⟩ := (lists.mem_iff front).mpr held
    have offered := (offers.mem_iff row here front reads hash).mpr open_
    obtain ⟨bound, shown⟩ := Option.isSome_iff_exists.mp (offers.shown row here hash offered)
    have fit := (passes_iff shown).mp passes
    obtain rfl := hash_of_fitting fit
    have agrees : agreeing var row bound = some (AssocMap.insert var bound row) := by
      refine agreeing_eq_some.mpr ⟨rfl, fun other read => ?_⟩
      obtain ⟨i, named⟩ := List.getElem?_of_mem ((lists.binds row here var).mp (by rw [read]; rfl))
      rw [hashAt_of_reads reads named] at read
      exact shared other (mem_zip_iff.mpr ⟨i, named, read⟩)
    refine ⟨AssocMap.insert var bound row, List.mem_flatMap.mpr ⟨row, here, ?_⟩, ?_⟩
    · exact mem_grown.mpr ⟨bound, offered, fit, agrees⟩
    · rw [reads_of_agreeing (lists.binds row here) agrees, reads, List.map_append,
        List.map_singleton]

/-- Rows extended by their candidates are assignments extended by a commit. -/
theorem Lists.extend (lists : Lists store names valid rows)
    (offers : Offers fuel store names rows candidates option)
    : Lists store (names ++ [var]) (Extended option (Passes store node) names var valid)
        (rows.flatMap (grown fuel store node var candidates)) := by
  refine ⟨?_, lists.mem_grown_iff offers, fun target member name => ?_,
    fun target member name bound held => ?_⟩
  · refine @nodup_map_flatMap _ _ _ _ _ _ _ _ List.dropLast lists.once
      (fun row here => nodup_grown (lists.binds row here) (offers.distinct row here))
      (fun row here target member => ?_)
    obtain ⟨_, -, -, agrees⟩ := mem_grown.mp member
    rw [reads_of_agreeing (lists.binds row here) agrees, List.dropLast_concat]
  · obtain ⟨row, here, member⟩ := List.mem_flatMap.mp member
    obtain ⟨_, -, -, agrees⟩ := mem_grown.mp member
    rw [hashAt_agreeing agrees, lists.binds row here name]
    show name ∈ names ∨ var = name ↔ name ∈ names ++ [var]
    rw [List.mem_append, List.mem_singleton, @eq_comm _ var]
  · obtain ⟨row, here, member⟩ := List.mem_flatMap.mp member
    obtain ⟨_, -, fit, agrees⟩ := mem_grown.mp member
    obtain ⟨rfl, -⟩ := agreeing_eq_some.mp agrees
    rw [AssocMap.lookup_insert] at held
    split at held
    · cases held
      exact ⟨fuel, (Option.filter_eq_some_iff.mp fit).1⟩
    · exact lists.shown row here name bound held

/-- A row that binds nothing. -/
theorem lists_start (store : DiskStore) : Lists store [] (· = []) [[]] := by
  refine ⟨List.nodup_singleton _, fun hashes => ?_, fun row here name => ?_,
    fun row here name bound held => ?_⟩
  · constructor
    · rintro ⟨row, -, same⟩
      exact List.map_eq_nil_iff.mp same.symm
    · rintro rfl
      exact ⟨[], List.mem_singleton_self [], rfl⟩
  · cases List.mem_singleton.mp here
    simp [hashAt]
  · cases List.mem_singleton.mp here
    cases held

end Extending

end Epochs.Ql.Engine
