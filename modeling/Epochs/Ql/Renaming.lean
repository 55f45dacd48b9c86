import Epochs.Ql.PathMatches
import Mathlib.Logic.Equiv.Basic

/-! Renaming the variables of a query. A node without a variable is bound under a name made from its
position, in the same map as the variables. A renaming keeps the rows of a query if it leaves apart
what was apart from the names of the nodes that some commits reach.
-/

namespace Epochs.Ql

open Lib AssocMap

-- Expressions

mutual

def Expression.vars : Expression → List String
  | .var name => [name]
  | .propertyAccess object _ => object.vars
  | .binary left _ right => left.vars ++ right.vars
  | .map entries => entriesVars entries
  | .null | .bool _ | .int _ | .float _ | .string _ => []

def Expression.entriesVars : List (String × Expression) → List String
  | [] => []
  | (_, expression) :: rest => expression.vars ++ entriesVars rest

end

mutual

def Expression.rename (new : String → String) : Expression → Expression
  | .var name => .var (new name)
  | .propertyAccess object property => .propertyAccess (object.rename new) property
  | .binary left op right => .binary (left.rename new) op (right.rename new)
  | .map entries => .map (renameEntries new entries)
  | .null => .null
  | .bool value => .bool value
  | .int value => .int value
  | .float value => .float value
  | .string value => .string value

def Expression.renameEntries (new : String → String)
    : List (String × Expression) → List (String × Expression)
  | [] => []
  | (key, expression) :: rest => (key, expression.rename new) :: renameEntries new rest

end

-- Queries

def NodePattern.rename (new : String → String) (node : NodePattern) : NodePattern :=
  { node with
    var := node.var.map new
    properties := Expression.renameEntries new node.properties }

def PatternElement.rename (new : String → String) : PatternElement → PatternElement
  | .node held => .node (held.rename new)
  | .edge held => .edge held

def Pattern.rename (new : String → String) (pattern : Pattern) : Pattern :=
  ⟨pattern.elements.map (PatternElement.rename new)⟩

def SelectClause.rename (new : String → String) (select : SelectClause) : SelectClause :=
  ⟨select.items.map fun item => { item with expression := item.expression.rename new }⟩

def QueryStatement.rename (new : String → String) (query : QueryStatement) : QueryStatement :=
  { query with
    matchClause := query.matchClause.map fun clause => ⟨clause.patterns.map (Pattern.rename new)⟩
    whereClause := query.whereClause.map (Expression.rename new)
    select := query.select.map (SelectClause.rename new) }

def PatternElement.vars : PatternElement → List String
  | .node held => held.var.toList ++ Expression.entriesVars held.properties
  | .edge _ => []

def QueryStatement.vars (query : QueryStatement) : List String :=
  (query.matchClause.toList.flatMap fun clause =>
      clause.patterns.flatMap fun pattern => pattern.elements.flatMap PatternElement.vars)
    ++ query.whereClause.toList.flatMap Expression.vars
    ++ query.select.toList.flatMap fun select =>
      select.items.flatMap fun item => item.expression.vars

namespace Engine

open Expression DiskStore

-- Values of expressions

mutual

/-- A literal is none because of its variables. -/
theorem evalLiteralExpr_rename (new : String → String)
    : (expression : Expression)
      → (evalLiteralExpr (expression.rename new)).toOption = (evalLiteralExpr expression).toOption
  | .map entries => by
    rw [Expression.rename, evalLiteralExpr, evalLiteralExpr, toOption_bind, toOption_bind,
      evalLiteralEntries_rename new entries]
  | .var _ | .propertyAccess _ _ | .binary _ _ _ | .null | .bool _ | .int _ | .float _
  | .string _ => rfl

theorem evalLiteralEntries_rename (new : String → String)
    : (entries : List (String × Expression))
      → (evalLiteralEntries (renameEntries new entries)).toOption
        = (evalLiteralEntries entries).toOption
  | [] => rfl
  | (key, expression) :: rest => by
    simp only [renameEntries, evalLiteralEntries, toOption_bind,
      evalLiteralExpr_rename new expression, evalLiteralEntries_rename new rest]

end

section Evaluation

variable {new : String → String} {paired : String → String → Prop} {row row' : Bindings}

theorem rename_ne_var {object : Expression} (notVar : ∀ name, object ≠ .var name) (name : String)
    : object.rename new ≠ .var name := by
  cases object with
  | var other => exact absurd rfl (notVar other)
  | _ => simp [Expression.rename]

/-- A property of something other than a variable is a field of its value. -/
theorem evalExpr_propertyAccess {object : Expression} (notVar : ∀ name, object ≠ .var name)
    {property : String}
    : evalExpr row (.propertyAccess object property)
      = evalExpr row object >>= fun base => .ok (fieldOf base property) := by
  cases object with
  | var name => exact absurd rfl (notVar name)
  | _ => rfl

theorem boundTo_toOption (corresponds : Corresponds paired row row') {name : String}
    (here : paired name (new name))
    : (boundTo row' (new name)).toOption = (boundTo row name).toOption := by
  unfold boundTo
  rw [corresponds name (new name) here]
  cases lookup name row <;> rfl

mutual

/-- The value of an expression is the same in rows that correspond along the renaming. -/
theorem evalExpr_rename (corresponds : Corresponds paired row row')
    : (expression : Expression) → (∀ name ∈ expression.vars, paired name (new name))
      → (evalExpr row' (expression.rename new)).toOption = (evalExpr row expression).toOption
  | .null, _ | .bool _, _ | .int _, _ | .float _, _ | .string _, _ => rfl
  | .var name, named => by
    simp only [Expression.rename, evalExpr, toOption_bind,
      boundTo_toOption corresponds (named name List.mem_cons_self)]
  | .map entries, named => by
    simp only [Expression.rename, evalExpr, toOption_bind,
      evalEntries_rename corresponds entries named]
  | .binary left op right, named => by
    have first := evalExpr_rename corresponds left
      fun name member => named name (List.mem_append_left _ member)
    have second := evalExpr_rename corresponds right
      fun name member => named name (List.mem_append_right _ member)
    simp only [Expression.rename, evalExpr, toOption_bind, first, second]
  | .propertyAccess object property, named => by
    by_cases isVar : ∃ name, object = .var name
    · obtain ⟨name, rfl⟩ := isVar
      simp only [Expression.rename, evalExpr, toOption_bind,
        boundTo_toOption corresponds (named name List.mem_cons_self)]
    · have notVar : ∀ name, object ≠ .var name := fun name same => isVar ⟨name, same⟩
      rw [Expression.rename, evalExpr_propertyAccess (rename_ne_var notVar),
        evalExpr_propertyAccess notVar, toOption_bind, toOption_bind,
        evalExpr_rename corresponds object named]

theorem evalEntries_rename (corresponds : Corresponds paired row row')
    : (entries : List (String × Expression))
      → (∀ name ∈ entriesVars entries, paired name (new name))
      → (evalEntries row' (renameEntries new entries)).toOption
        = (evalEntries row entries).toOption
  | [], _ => rfl
  | (key, expression) :: rest, named => by
    have first := evalExpr_rename corresponds expression
      fun name member => named name (List.mem_append_left _ member)
    have others := evalEntries_rename corresponds rest
      fun name member => named name (List.mem_append_right _ member)
    simp only [renameEntries, evalEntries, toOption_bind, first, others]

end

theorem evalItems_rename (corresponds : Corresponds paired row row')
    {items : List ProjectionItem}
    (named : ∀ item ∈ items, ∀ name ∈ item.expression.vars, paired name (new name))
    : (evalItems row' (SelectClause.rename new ⟨items⟩).items).toOption
      = (evalItems row items).toOption := by
  induction items with
  | nil => rfl
  | cons item rest ih =>
    obtain ⟨here, others⟩ := List.forall_mem_cons.mp named
    simp only [SelectClause.rename, List.map_cons, evalItems, toOption_bind,
      evalExpr_rename corresponds item.expression here] at ih ⊢
    rw [ih others]

variable {rows rows' : List Bindings}

theorem evalRows_rename
    (corresponds : List.Forall₂ (Corresponds paired) rows rows')
    {items : List ProjectionItem}
    (named : ∀ item ∈ items, ∀ name ∈ item.expression.vars, paired name (new name))
    : (evalRows (SelectClause.rename new ⟨items⟩).items rows').toOption
      = (evalRows items rows).toOption := by
  induction corresponds with
  | nil => rfl
  | cons here _ ih =>
    simp only [evalRows, toOption_bind, evalItems_rename here named, ih]

theorem passes_rename (corresponds : Corresponds paired row row')
    {whereClause : Option Expression}
    (named : ∀ name ∈ whereClause.toList.flatMap Expression.vars, paired name (new name))
    : passes (whereClause.map (Expression.rename new)) row' = passes whereClause row := by
  cases whereClause with
  | none => rfl
  | some expression =>
    have same := evalExpr_rename corresponds expression (by simpa using named)
    simp only [passes, Option.map_some, evalBool]
    cases value : evalExpr row expression <;>
      cases value' : evalExpr row' (expression.rename new) <;>
      rw [value, value'] at same
    · rfl
    · cases same
    · cases same
    · cases same
      rfl

end Evaluation

-- Rows of a pattern

theorem matchesProperties_rename (new : String → String) (bound : BoundCommit)
    (properties : List (String × Expression))
    : (matchesProperties bound (renameEntries new properties)).toOption
      = (matchesProperties bound properties).toOption := by
  induction properties with
  | nil => rfl
  | cons entry rest ih =>
    obtain ⟨key, expected⟩ := entry
    simp only [renameEntries, matchesProperties, toOption_bind, evalLiteralExpr_rename]
    congr 1
    funext wanted
    split
    · exact ih
    · rfl

section Patterns

variable [Blake3] {fuel : Nat} {new : String → String} {paired : String → String → Prop}

theorem tryBindNode_agrees (node : NodePattern) (hash : Hash) (commit : Commit)
    : Run.Agrees Eq (tryBindNode fuel node hash commit)
        (tryBindNode fuel (node.rename new) hash commit) := by
  refine .bind (.same _) ?_
  rintro bound _ rfl
  refine .bind (.ofExcept (matchesProperties_rename new bound node.properties)) ?_
  rintro truth _ rfl
  exact .same _

variable {node : NodePattern}

theorem bindRows_agrees {grow grow' : BoundCommit → Option Bindings}
    (alike : ∀ bound, List.Forall₂ (Corresponds paired) (grow bound).toList (grow' bound).toList)
    (commits : List Hash) (corresponds : List.Forall₂ (Corresponds paired) rows rows')
    : Run.Agrees (List.Forall₂ (Corresponds paired)) (bindRows fuel node grow commits rows)
        (bindRows fuel (node.rename new) grow' commits rows') := by
  induction commits generalizing rows rows' with
  | nil => exact .pure corresponds
  | cons hash rest ih =>
    refine .bind (.same _) ?_
    rintro commit _ rfl
    refine .bind (tryBindNode_agrees node hash commit) ?_
    rintro bound _ rfl
    refine ih (List.rel_append corresponds ?_)
    cases bound with
    | none => exact .nil
    | some bound => exact alike bound

omit [Blake3] in
theorem agreeing_corresponds (oneToOne : OneToOne paired) {var var' : String}
    (here : paired var var') {row row' : Bindings} (extends_ : Corresponds paired row row')
    (bound : BoundCommit)
    : List.Forall₂ (Corresponds paired) (agreeing var row bound).toList
        (agreeing var' row' bound).toList := by
  have longer : List.Forall₂ (Corresponds paired) [insert var bound row] [insert var' bound row'] :=
    .cons (extends_.insert oneToOne here bound) .nil
  rw [agreeing, agreeing, extends_ var var' here]
  cases lookup var row with
  | none => exact longer
  | some existing =>
    dsimp only
    split
    · exact .nil
    · exact longer

variable [HashSeed] {edge : EdgePattern} {children : AssocMap Hash (List Hash)}

theorem extendRows_agrees (oneToOne : OneToOne paired)
    {prevVar prevVar' var var' : String} (before : paired prevVar prevVar')
    (here : paired var var') {next next' : List Bindings}
    (corresponds : List.Forall₂ (Corresponds paired) rows rows')
    (extended : List.Forall₂ (Corresponds paired) next next')
    : Run.Agrees (List.Forall₂ (Corresponds paired))
        (extendRows fuel edge node prevVar var children rows next)
        (extendRows fuel edge (node.rename new) prevVar' var' children rows' next') := by
  induction corresponds generalizing next next' with
  | nil => exact .pure extended
  | cons first _ ih =>
    rw [extendRows, extendRows, first prevVar prevVar' before]
    split
    · exact .throw _ _
    · refine .bind (.same _) ?_
      rintro candidates _ rfl
      rw [bindCandidates_eq, bindCandidates_eq]
      exact .bind (bindRows_agrees (agreeing_corresponds oneToOne here first) candidates extended)
        fun _ _ => ih

-- Nodes that no commit fits

variable {store now last : DiskStore}

omit [HashSeed] in
theorem fitting_rename (new : String → String) (node : NodePattern) (hash : Hash)
    : fitting fuel store (node.rename new) hash = fitting fuel store node hash := by
  have same : fits (node.rename new) = fits node := by
    funext bound
    have same := matchesProperties_rename new bound node.properties
    unfold fits NodePattern.rename
    cases tests : matchesProperties bound node.properties <;>
      cases tests' : matchesProperties bound (renameEntries new node.properties) <;>
      rw [tests, tests'] at same
    · cases same
    · cases same
    · cases same
      rfl
  rw [fitting, fitting, same]

omit [HashSeed] in
/-- Where no commit fits a node, the rows it would make do not matter. -/
theorem bindRows_unfit (alike : Alike store now) {commits : List Hash}
    (unfit : ∀ hash ∈ commits, fitting fuel store node hash = none)
    (grow grow' : BoundCommit → Option Bindings) (rows : List Bindings)
    : bindRows fuel node grow commits rows now = bindRows fuel node grow' commits rows now := by
  induction commits generalizing now rows with
  | nil => rfl
  | cons hash rest ih =>
    obtain ⟨here, others⟩ := List.forall_mem_cons.mp unfit
    rw [bindRows, bindRows, Run.bind_apply, Run.bind_apply]
    cases loaded : lift (getCommit hash) now with
    | error fault last => rfl
    | ok commit middle =>
      dsimp only
      rw [Run.bind_apply, Run.bind_apply]
      cases tried : tryBindNode fuel node hash commit middle with
      | error fault last => rfl
      | ok bound last =>
        obtain ⟨same, -, still⟩ := tryBindNode_eq_ok alike loaded tried
        rw [same, here]
        exact ih still others _

/-- No commit that an edge leads to from a row fits a node. -/
def Unfit (fuel : Nat) (store : DiskStore) (edge : EdgePattern) (node : NodePattern)
    (children : AssocMap Hash (List Hash)) (prevVar : String) (rows : List Bindings) : Prop :=
  ∀ row ∈ rows, ∀ src found last, lookup prevVar row = some src
    → expandEdge fuel edge src.hash children store = .ok found last
    → ∀ hash ∈ found, fitting fuel store node hash = none

/-- Where no commit fits a node, its name does not matter. -/
theorem extendRows_unfit (alike : Alike store now) {prevVar : String}
    (unfit : Unfit fuel store edge node children prevVar rows) (var other : String)
    (next : List Bindings)
    : extendRows fuel edge node prevVar var children rows next now
      = extendRows fuel edge node prevVar other children rows next now := by
  induction rows generalizing now next with
  | nil => rfl
  | cons row rest ih =>
    obtain ⟨here, others⟩ := List.forall_mem_cons.mp unfit
    rw [extendRows, extendRows]
    cases held : lookup prevVar row with
    | none => rfl
    | some src =>
      dsimp only
      rw [Run.bind_apply, Run.bind_apply]
      cases expanded : expandEdge fuel edge src.hash children now with
      | error fault last => rfl
      | ok found middle =>
        obtain ⟨state, expanded', -⟩ := expandEdge_follows _ _ _ _ _ _ _ _ alike.symm expanded
        have still := alike.after ((expandEdge_kept (.within looks_frame) loadCommit_looks edge
          src.hash).of_ok expanded)
        dsimp only
        rw [Run.bind_apply, Run.bind_apply, bindCandidates_eq, bindCandidates_eq,
          bindRows_unfit still (here src found state held expanded') _ (agreeing other row)]
        cases bound : bindRows fuel node (agreeing other row) found next middle with
        | error fault last => rfl
        | ok more last =>
          obtain ⟨-, still', -⟩ := bindRows_eq_ok still bound
          exact ih still' others more

/-- Rows that correspond are extended alike, by a name that is paired or by none. -/
theorem extendRows_agreesAt (oneToOne : OneToOne paired) {prevVar prevVar' var var' : String}
    (corresponds : List.Forall₂ (Corresponds paired) rows rows')
    (before : rows ≠ [] → paired prevVar prevVar')
    (here : paired var var'
      ∨ Alike store now ∧ Unfit fuel store edge node children prevVar rows)
    : Run.AgreesAt (List.Forall₂ (Corresponds paired))
        (extendRows fuel edge node prevVar var children rows [])
        (extendRows fuel edge (node.rename new) prevVar' var' children rows' []) now := by
  by_cases empty : rows = []
  · subst empty
    cases corresponds
    exact Run.Agrees.pure .nil now
  · have before := before empty
    rcases here with here | ⟨alike, unfit⟩
    · exact extendRows_agrees oneToOne before here corresponds .nil now
    · have unfit' : Unfit fuel store edge (node.rename new) children prevVar' rows' := by
        intro row' member src found last held expanded hash led
        obtain ⟨row, inRows, pair⟩ := exists_left corresponds member
        rw [pair prevVar prevVar' before] at held
        rw [fitting_rename]
        exact unfit row inRows src found last held expanded hash led
      unfold Run.AgreesAt
      rw [extendRows_unfit alike unfit var prevVar, extendRows_unfit alike unfit' var' prevVar']
      exact extendRows_agrees oneToOne before before corresponds .nil now

-- Nodes that are reached

variable {elements : List PatternElement} {context : Hash} {commits : List Hash} {i : Nat}

/-- Some commits, one for each variable, match a pattern as far as a position. In a store that is not
settled every position counts.
-/
def Reached (store : DiskStore) (context : Hash) (elements : List PatternElement) (place : Nat)
    : Prop :=
  store.Settled → store.Coherent → ∃ first steps hashes,
    elements.take (place + 1) = pathElements first steps
    ∧ IsAssignment (InUniverse store context) (Passes store) (LeadsTo store) first steps hashes

/-- The rows so far are the matches of the pattern so far. -/
def Tracked (store : DiskStore) (context : Hash) (elements : List PatternElement) (i : Nat)
    (rows : List Bindings) (now : DiskStore) : Prop :=
  store.Settled → store.Coherent → Alike store now ∧ ∃ first done,
    i = 2 * done.length + 1 ∧ elements.take i = pathElements first done
    ∧ Lists store (namesOf first done)
      (IsMatch (InUniverse store context) (Passes store) (LeadsTo store) first done) rows

omit [Blake3] [HashSeed] in
theorem take_concat {first : NodePattern} {done : List (EdgePattern × NodePattern)}
    (taken : elements.take i = pathElements first done) (atEdge : elements[i]? = some (.edge edge))
    (atNode : elements[i + 1]? = some (.node node))
    : elements.take (i + 1 + 1) = pathElements first (done ++ [(edge, node)]) := by
  rw [List.take_add_one, List.take_add_one, taken, atEdge, atNode, pathElements_append]
  simp

/-- A pattern that has rows so far has reached its last node. -/
theorem Tracked.reached (tracked : Tracked store context elements (i + 1) rows now)
    (some_ : rows ≠ [])
    : Reached store context elements i := by
  intro settled coherent
  obtain ⟨-, first, done, -, taken, lists⟩ := tracked settled coherent
  obtain ⟨row, here⟩ := List.exists_mem_of_ne_nil _ some_
  obtain ⟨hashes, reads⟩ := exists_reads (lists.binds row here)
  exact ⟨first, done, hashes, taken, ((lists.mem_iff hashes).mp ⟨row, here, reads⟩).toIsAssignment⟩

omit [Blake3] [HashSeed] in
theorem named_of_take {first : NodePattern} {done : List (EdgePattern × NodePattern)}
    {prev : PatternElement} (taken : elements.take (2 * done.length + 1) = pathElements first done)
    (atPrev : elements[2 * done.length + 1 - 1]? = some prev)
    : (namesOf first done)[done.length]? = some (patternNodeVar prev (2 * done.length + 1 - 1)) := by
  obtain ⟨node, isLast, named⟩ := exists_lastName first done
  rw [← taken, List.getElem?_take_of_lt (by omega)] at isLast
  cases atPrev.symm.trans isLast
  exact named

section Surveyed

variable {prev : PatternElement} {start : DiskStore}
  (surveyed : store.Settled → store.Coherent → Surveyed fuel store context commits children start)
include surveyed

/-- What is known of the rows before a node is known after it. -/
theorem Tracked.extend (tracked : Tracked store context elements i rows now)
    (atEdge : elements[i]? = some (.edge edge))
    (atNode : elements[i + 1]? = some (.node node)) (atPrev : elements[i - 1]? = some prev)
    {longer : List Bindings}
    (ran : extendRows fuel edge node (patternNodeVar prev (i - 1)) (node.var.getD s!"_{i + 1}")
      children rows [] now = .ok longer last)
    : Tracked store context elements (i + 2) longer last := by
  intro settled coherent
  obtain ⟨alike, first, done, rfl, taken, lists⟩ := tracked settled coherent
  have named := named_of_take taken atPrev
  have leading := (surveyed settled coherent).leading settled coherent (done ++ [(edge, node)])
  obtain ⟨still, longerLists⟩ := leading.of_append.extendRows alike
    (leading.expands (edge, node) (by simp)) lists named ran
  exact ⟨still, first, done ++ [(edge, node)], by simp; omega, take_concat taken atEdge atNode,
    longerLists⟩

/-- No commit fits a node that is not reached. -/
theorem Tracked.unfit (tracked : Tracked store context elements i rows now)
    (atEdge : elements[i]? = some (.edge edge))
    (atNode : elements[i + 1]? = some (.node node)) (atPrev : elements[i - 1]? = some prev)
    (bare : node.var = none) (unreached : ¬ Reached store context elements (i + 1))
    : Alike store now ∧ Unfit fuel store edge node children (patternNodeVar prev (i - 1)) rows := by
  unfold Reached at unreached
  push Not at unreached
  obtain ⟨settled, coherent, unreached⟩ := unreached
  obtain ⟨alike, first, done, rfl, taken, lists⟩ := tracked settled coherent
  have named := named_of_take taken atPrev
  have leading := (surveyed settled coherent).leading settled coherent (done ++ [(edge, node)])
  refine ⟨alike, fun row here src found last held expanded hash led => ?_⟩
  by_contra fits_
  obtain ⟨bound, fit⟩ := Option.ne_none_iff_exists'.mp fits_
  obtain ⟨hashes, reads⟩ := exists_reads (lists.binds row here)
  have isMatch := (lists.mem_iff hashes).mp ⟨row, here, reads⟩
  obtain ⟨src', held', tried⟩ := lists.exists_source leading.of_append.inside named here
  cases held.symm.trans held'
  have source := hashAt_of_reads reads named
  rw [hashAt, held', Option.map_some] at source
  refine unreached first (done ++ [(edge, node)]) (hashes ++ [hash])
    (take_concat taken atEdge atNode) (isAssignment_concat.mpr ⟨hashes, hash, src.hash, rfl,
      isMatch.toIsAssignment, source.symm,
      (leading.expands (edge, node) (by simp) _ tried _ _ expanded hash).mp led,
      (passes_iff (Option.filter_eq_some_iff.mp fit).1).mpr fit, fun _ _ var _ _ same => ?_⟩)
  rw [bare] at same
  cases same

-- Rows of a query

/-- Each node that has a variable or is reached is bound under paired names. -/
def NamesPaired (new : String → String) (paired : String → String → Prop)
    (elements : List PatternElement) (reached : Nat → Prop) : Prop :=
  ∀ (i : Nat) (node : NodePattern), elements[i]? = some (.node node)
    → (node.var = none → reached i)
    → paired (node.var.getD s!"_{i}") ((node.rename new).var.getD s!"_{i}")

theorem matchSteps_agrees (oneToOne : OneToOne paired)
    (names : NamesPaired new paired elements (Reached store context elements))
    {budget i : Nat} (before : ∃ node, elements[i]? = some (.node node))
    (tracked : Tracked store context elements (i + 1) rows now)
    (corresponds : List.Forall₂ (Corresponds paired) rows rows')
    : Run.AgreesAt (List.Forall₂ (Corresponds paired))
        (matchSteps fuel elements children budget (i + 1) rows)
        (matchSteps fuel (elements.map (PatternElement.rename new)) children budget (i + 1) rows')
        now := by
  induction budget generalizing i rows rows' now with
  | zero => exact Run.Agrees.pure corresponds now
  | succ budget ih =>
    rw [matchSteps, matchSteps, List.length_map]
    split
    · refine .bind (Run.Agrees.index _ elements (i + 1) now) ?_
      rintro element _ _ indexed ⟨atEdge, rfl⟩
      obtain ⟨-, rfl⟩ := Run.index_eq_ok.mp indexed
      cases element with
      | node node => exact Run.Agrees.throw _ _ _
      | edge edge =>
        refine .bind (Run.Agrees.index _ elements (i + 1 + 1) _) ?_
        rintro target _ _ indexed ⟨atNode, rfl⟩
        obtain ⟨-, rfl⟩ := Run.index_eq_ok.mp indexed
        cases target with
        | edge other => exact Run.Agrees.throw _ _ _
        | node node =>
          refine .bind (Run.Agrees.index _ elements i _) ?_
          rintro prev _ _ indexed ⟨atPrev, rfl⟩
          obtain ⟨-, rfl⟩ := Run.index_eq_ok.mp indexed
          obtain ⟨source, found⟩ := before
          cases found.symm.trans atPrev
          have here : paired (node.var.getD s!"_{i + 1 + 1}")
                ((node.rename new).var.getD s!"_{i + 1 + 1}")
              ∨ Alike store now
                ∧ Unfit fuel store edge node children (patternNodeVar (.node source) i) rows := by
            by_cases counts : node.var = none → Reached store context elements (i + 1 + 1)
            · exact .inl (names (i + 1 + 1) node atNode counts)
            · obtain ⟨bare, unreached⟩ := Classical.not_imp.mp counts
              exact .inr (tracked.unfit surveyed atEdge atNode atPrev bare unreached)
          exact .bind (extendRows_agreesAt oneToOne corresponds
            (fun some_ => names i source atPrev fun _ => tracked.reached some_) here)
            fun longer longer' next ran => ih ⟨node, atNode⟩
              (tracked.extend surveyed atEdge atNode atPrev ran)
    · exact Run.Agrees.pure corresponds now

variable {pattern : Pattern} {first : NodePattern}

/-- The first node is bound alike, and its rows are its matches. -/
theorem bindFirst_agrees (oneToOne : OneToOne paired)
    (names : NamesPaired new paired elements (Reached store context elements))
    (here : elements[0]? = some (.node first))
    : Run.AgreesAt (List.Forall₂ (Corresponds paired))
        (bindFirst fuel first (HashSeed.order commits) [])
        (bindFirst fuel (first.rename new) (HashSeed.order commits) []) start := by
  rw [bindFirst_eq, bindFirst_eq]
  by_cases counts : first.var = none → Reached store context elements 0
  · have empty : Corresponds paired ([] : Bindings) [] := fun _ _ _ => rfl
    exact bindRows_agrees (fun bound =>
      .cons (empty.insert oneToOne (names 0 first here counts) bound) .nil) _ .nil start
  · obtain ⟨bare, unreached⟩ := Classical.not_imp.mp counts
    unfold Reached at unreached
    push Not at unreached
    obtain ⟨settled, coherent, unreached⟩ := unreached
    have surveyed := surveyed settled coherent
    have alike := surveyed.looks.alike ⟨settled.sane, coherent⟩
    have unfit : ∀ hash ∈ HashSeed.order commits, fitting fuel store first hash = none := by
      intro hash member
      by_contra fits_
      obtain ⟨bound, fit⟩ := Option.ne_none_iff_exists'.mp fits_
      refine unreached first [] [hash] ?_ (isAssignment_nil.mpr ⟨hash, rfl,
        (surveyed.all hash).mp ((HashSeed.perm commits).mem_iff.mp member),
        (passes_iff (Option.filter_eq_some_iff.mp fit).1).mpr fit⟩)
      rw [List.take_add_one, here]
      rfl
    unfold Run.AgreesAt
    rw [bindRows_unfit alike unfit _ fun _ => none,
      bindRows_unfit alike (fun hash member => (fitting_rename new first hash).trans (unfit hash member))
        _ fun _ => none]
    exact bindRows_agrees (fun _ => .nil) _ .nil start

theorem matchPattern_agrees (oneToOne : OneToOne paired)
    (names : NamesPaired new paired pattern.elements (Reached store context pattern.elements))
    : Run.AgreesAt (List.Forall₂ (Corresponds paired))
        (matchPattern fuel pattern commits children)
        (matchPattern fuel (pattern.rename new) commits children) start := by
  unfold matchPattern Pattern.rename
  simp only [List.map_eq_nil_iff, List.length_map]
  split
  · exact Run.Agrees.pure .nil start
  · refine .bind (Run.Agrees.index _ pattern.elements 0 start) ?_
    rintro element _ _ indexed ⟨here, rfl⟩
    obtain ⟨-, rfl⟩ := Run.index_eq_ok.mp indexed
    cases element with
    | edge edge => exact Run.Agrees.throw _ _ _
    | node first =>
      refine .bind (bindFirst_agrees surveyed oneToOne names here) fun rows rows' middle bound =>
        matchSteps_agrees surveyed oneToOne names ⟨first, here⟩ fun settled coherent => ?_
      have surveyed := surveyed settled coherent
      obtain ⟨still, lists⟩ := surveyed.bindFirst_lists
        (surveyed.looks.alike ⟨settled.sane, coherent⟩) bound
      refine ⟨still, first, [], rfl, ?_, lists⟩
      rw [List.take_add_one, here]
      rfl

end Surveyed

theorem execMatch_agrees (oneToOne : OneToOne paired)
    (names : NamesPaired new paired pattern.elements (Reached store context pattern.elements))
    : Run.AgreesAt (List.Forall₂ (Corresponds paired))
        (execMatch fuel ⟨[pattern]⟩ context) (execMatch fuel ⟨[pattern.rename new]⟩ context)
        store := by
  refine .bind (Run.Agrees.same _ store) ?_
  rintro ancestors _ one collected rfl
  refine .bind (Run.Agrees.same _ one) ?_
  rintro reachable _ two walked rfl
  refine .bind (Run.Agrees.same _ two) ?_
  rintro children _ start mapped rfl
  refine .bind (matchPattern_agrees (fun settled coherent => surveyed_of_ok settled coherent
    (Run.mapErr_eq_ok.mp collected) (Run.mapErr_eq_ok.mp walked) (Run.mapErr_eq_ok.mp mapped))
    oneToOne names) fun _ _ last _ found => Run.Agrees.pure found last

omit [Blake3] in
theorem projectRows_agrees {select : SelectClause}
    (named : ∀ item ∈ select.items, ∀ name ∈ item.expression.vars, paired name (new name))
    (corresponds : List.Forall₂ (Corresponds paired) rows rows')
    : Run.Agrees (fun result result' => result'.rows = result.rows)
        (projectRows (some select) rows) (projectRows (some (select.rename new)) rows') := by
  unfold projectRows
  cases corresponds with
  | nil => exact .pure rfl
  | cons first others =>
    rw [if_neg (by simp), if_neg (by simp)]
    refine .bind (.ofExcept (evalRows_rename (.cons first others) named)) ?_
    rintro values _ rfl
    exact .pure rfl

theorem execQuery_of_match {query : QueryStatement} {clause : MatchClause}
    (matches_ : query.matchClause = some clause)
    : execQuery fuel query = execMatchQuery fuel query := by
  unfold execQuery
  rw [matches_]
  cases query.traversal <;> rfl

theorem execQuery_agrees (oneToOne : OneToOne paired) {query : QueryStatement}
    (single : query.matchClause = some ⟨[pattern]⟩) {select : SelectClause}
    (selects : query.select = some select) (ran : contextHash query.context store = .ok context now)
    (names : NamesPaired new paired pattern.elements (Reached now context pattern.elements))
    (named : ∀ name ∈ query.vars, paired name (new name))
    : Run.AgreesAt (fun result result' => result'.rows = result.rows)
        (execQuery fuel query) (execQuery fuel (query.rename new)) store := by
  have filtered : ∀ name ∈ query.whereClause.toList.flatMap Expression.vars,
      paired name (new name) :=
    fun name member => named name (List.mem_append_left _ (List.mem_append_right _ member))
  have selected : ∀ item ∈ select.items, ∀ name ∈ item.expression.vars,
      paired name (new name) := by
    intro item member name here
    refine named name (List.mem_append_right _ ?_)
    rw [selects, Option.toList_some, List.flatMap_singleton]
    exact List.mem_flatMap.mpr ⟨item, member, here⟩
  have renamed : (query.rename new).matchClause = some ⟨[pattern.rename new]⟩ := by
    simp [QueryStatement.rename, single]
  rw [execQuery_of_match single, execQuery_of_match renamed, execMatchQuery, execMatchQuery, single,
    renamed]
  refine .bind (Run.Agrees.same _ store) ?_
  rintro context' _ now' ran' rfl
  cases ran.symm.trans ran'
  refine .bind (execMatch_agrees oneToOne names) fun rows rows' last _ found => ?_
  rw [selects, show (query.rename new).select = some (select.rename new) by
    simp [QueryStatement.rename, selects]]
  refine projectRows_agrees selected (List.rel_filter ?_ found) last
  intro row row' corresponds
  exact (congrArg (· = true) (passes_rename corresponds filtered)).to_iff.symm

end Patterns

-- Renamings that keep the rows

/-- The nodes without a variable that are reached. -/
def IsMade (elements : List PatternElement) (reached : Nat → Prop) (i : Nat) : Prop :=
  (∃ node, elements[i]? = some (.node node) ∧ node.var = none) ∧ reached i

/-- A name stands for a variable and its new name, or is made for a node. -/
def Paired (new : String → String) (vars : List String) (made : Nat → Prop) (name name' : String)
    : Prop :=
  (name ∈ vars ∧ name' = new name) ∨ name' = name ∧ ∃ i : Nat, made i ∧ name = s!"_{i}"

/-- A variable has the name that is made for a node exactly when its new name has. -/
def KeepsMadeNames (new : String → String) (vars : List String) (made : Nat → Prop) : Prop :=
  ∀ i : Nat, made i → ∀ name ∈ vars, name = s!"_{i}" ↔ new name = s!"_{i}"

theorem oneToOne_paired {new : String → String} {vars : List String} {made : Nat → Prop}
    (injective : Set.InjOn new {name | name ∈ vars}) (keeps : KeepsMadeNames new vars made)
    : OneToOne (Paired new vars made) := by
  rintro first _ second _ (⟨here, rfl⟩ | ⟨rfl, i, isMade, rfl⟩)
    (⟨there, rfl⟩ | ⟨rfl, j, isMade', rfl⟩)
  · exact ⟨congrArg new, fun same => injective here there same⟩
  · exact keeps j isMade' first here
  · rw [eq_comm, keeps i isMade second there, eq_comm]
  · rfl

/-- A renaming of the variables of a query of one pattern, that keeps them apart from each other and
from the names of nodes without a variable, as far as some commits match the pattern as far as
such a node, keeps the rows of its result.
-/
theorem execQuery_rename [Blake3] [HashSeed] {query : QueryStatement} {pattern : Pattern}
    (single : query.matchClause = some ⟨[pattern]⟩) {select : SelectClause}
    (selects : query.select = some select) {new : String → String}
    (injective : Set.InjOn new {name | name ∈ query.vars}) {store : DiskStore}
    (keeps : ∀ context now, contextHash query.context store = .ok context now
      → KeepsMadeNames new query.vars
          (IsMade pattern.elements (Reached now context pattern.elements)))
    (fuel : Nat)
    : (Run.valueOf (execQuery fuel (query.rename new) store)).map QueryResult.rows
      = (Run.valueOf (execQuery fuel query store)).map QueryResult.rows := by
  have renamed : (query.rename new).matchClause = some ⟨[pattern.rename new]⟩ := by
    simp [QueryStatement.rename, single]
  cases ran : contextHash query.context store with
  | error fault last =>
    rw [execQuery_of_match single, execQuery_of_match renamed, execMatchQuery, execMatchQuery,
      Run.bind_apply, Run.bind_apply, show (query.rename new).context = query.context from rfl, ran]
  | ok context now =>
    refine (execQuery_agrees (oneToOne_paired injective (keeps context now ran)) single selects ran
      (fun i node here counts => ?_) fun name member => .inl ⟨member, rfl⟩).map_valueOf
      fun _ _ same => same
    cases var : node.var with
    | none =>
      rw [NodePattern.rename, var]
      exact .inr ⟨rfl, i, ⟨⟨node, here, var⟩, counts var⟩, rfl⟩
    | some name =>
      rw [NodePattern.rename, var]
      refine .inl ⟨?_, rfl⟩
      refine List.mem_append_left _ (List.mem_append_left _ ?_)
      rw [single, Option.toList_some, List.flatMap_singleton, List.flatMap_singleton]
      exact List.mem_flatMap.mpr ⟨_, List.mem_of_getElem? here, by simp [PatternElement.vars, var]⟩

end Engine
end Epochs.Ql

namespace Epochs.Ql.Engine

open Lib DiskStore AssocMap

attribute [local instance] Blake3.linked insertionOrder

def parentQuery (name : String) : QueryStatement where
  matchClause := some ⟨[⟨[.node { var := some name, label := none, properties := [] },
    .edge { direction := .outgoing, edgeType := .parent, multiplier := none },
    .node { var := none, label := none, properties := [] }]⟩]⟩
  select := some ⟨[⟨.var name, none⟩]⟩

def noHopQuery (name : String) : QueryStatement where
  matchClause := some ⟨[⟨[.node { var := some name, label := none, properties := [] },
    .edge { direction := .outgoing, edgeType := .parent, multiplier := some (.range (some 0) (some 0)) },
    .node { var := none, label := none, properties := [] }]⟩]⟩
  select := some ⟨[⟨.var name, none⟩]⟩

/-- An edge of no hops leads nowhere, so that the node after it is not reached. -/
theorem not_reached_noHop {store : DiskStore} (orderly : store.Orderly) (context : Hash)
    {first node : NodePattern} {edge : EdgePattern}
    (bounds : hopBounds edge.multiplier edge.edgeType = (0, 0))
    : ¬ Reached store context [.node first, .edge edge, .node node] 2 := by
  intro reached
  obtain ⟨first', steps, hashes, taken, assigned⟩ := reached orderly.settled orderly.coherent
  obtain ⟨step, rfl⟩ : ∃ step, steps = [step] := by
    have length := congrArg List.length taken
    rw [length_pathElements] at length
    exact List.length_eq_one_iff.mp (by simpa using length.symm)
  cases taken
  obtain ⟨source, target, rfl⟩ := List.length_eq_two.mp assigned.length_eq
  obtain ⟨fuel, children, middle, found, last, -, expanded, member⟩ :=
    assigned.follows 0 step source target rfl rfl rfl
  obtain ⟨bound, shown, -⟩ := assigned.fits first source (by simp [nodesOf])
  obtain ⟨commit, held⟩ := commit_of_shown orderly.readable shown
  obtain ⟨apart, hops, -, most, leads⟩ := (mem_expandEdge orderly.readable
    (fun _ => orderly.closed.whole held) expanded).mp member
  rw [bounds] at most
  obtain rfl := Nat.le_zero.mp most
  exact apart leads.symm

/-- The only variable of a query with three elements, of which the last is a node without one. -/
theorem keepsMadeNames_of_last {new : String → String} {first node : NodePattern}
    {edge : EdgePattern} (named : first.var ≠ none) {vars : List String} {reached : Nat → Prop}
    (last : reached 2 → ∀ name ∈ vars, name = "_2" ↔ new name = "_2")
    : KeepsMadeNames new vars (IsMade [.node first, .edge edge, .node node] reached) := by
  rintro i ⟨⟨held, here, bare⟩, isReached⟩
  rcases i with _ | _ | _ | i
  · cases here
    exact absurd bare named
  · cases here
  · exact last isReached
  · cases here

/-- `MATCH (a)-[:PARENT]->() SELECT a` with another name for `a`, and `MATCH (a)-[:PARENT*0..0]->()
SELECT a` with `_2` for it.
-/
theorem execQuery_rename_swap
    : (∀ fuel store,
        (Run.valueOf (execQuery fuel ((parentQuery "a").rename (Equiv.swap "a" "b")) store)).map
            QueryResult.rows
          = (Run.valueOf (execQuery fuel (parentQuery "a") store)).map QueryResult.rows)
      ∧ ∀ fuel store, store.Orderly →
        (Run.valueOf (execQuery fuel ((noHopQuery "a").rename (Equiv.swap "a" "_2")) store)).map
            QueryResult.rows
          = (Run.valueOf (execQuery fuel (noHopQuery "a") store)).map QueryResult.rows := by
  refine ⟨fun fuel store => ?_, fun fuel store orderly => ?_⟩
  · refine execQuery_rename (by rfl) (by rfl) (Equiv.injective _).injOn
      (fun context now _ => keepsMadeNames_of_last (by simp) fun _ name member => ?_) fuel
    have vars : (parentQuery "a").vars = ["a", "a"] := rfl
    obtain rfl : name = "a" := by simpa [vars] using member
    decide
  · refine execQuery_rename (by rfl) (by rfl) (Equiv.injective _).injOn
      (fun context now ran => keepsMadeNames_of_last (by simp) fun reached => ?_) fuel
    have looks := (contextHash_within looks_frame none).of_ok ran
    exact absurd reached (not_reached_noHop (orderly.looks looks) context rfl)

/-- The variable of `MATCH (a)-[:PARENT]->() SELECT a` may be written `_2`, which is the name of the
node without a variable: no commit is its own parent.
-/
theorem execQuery_not_hygienic
    : (parseScript "MATCH (_2)-[:PARENT]->() SELECT _2").toOption.isSome = true
      ∧ Function.Injective (Equiv.swap "a" "_2")
      ∧ ∃ second last, branchOff sample = .ok second last ∧ last.Orderly
        ∧ (Run.valueOf (execQuery 16 (parentQuery "a") last)).map (fun result => result.rows.length)
          = some 1
        ∧ (Run.valueOf (execQuery 16 ((parentQuery "a").rename (Equiv.swap "a" "_2")) last)).map
            (fun result => result.rows.length)
          = some 0 := by
  obtain ⟨second, last, ran, branched⟩ := branchOff_branched
  have counts : (Run.valueOf (execQuery 16 (parentQuery "a")
        (Run.stateOf (branchOff sample)))).map (fun result => result.rows.length) = some 1
      ∧ (Run.valueOf (execQuery 16 ((parentQuery "a").rename (Equiv.swap "a" "_2"))
        (Run.stateOf (branchOff sample)))).map (fun result => result.rows.length) = some 0 := by
    decide +kernel
  rw [ran] at counts
  exact ⟨by decide +kernel, Equiv.injective _, second, last, ran, branched.orderly, counts⟩

end Epochs.Ql.Engine
