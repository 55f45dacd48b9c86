import Epochs.Ql.Assignments
import Epochs.Ql.Paths

/-! Patterns of any length. The rows of a pattern of nodes with edges in between are the assignments
of commits to its nodes that respect the edges, the properties and the variables, each of them once,
provided that the document of every commit that is tried can be listed; otherwise the query fails.
-/

namespace Epochs.Ql.Engine

open Lib DiskStore Run

-- Runs that are long enough

def Literal (node : NodePattern) : Prop :=
  ∀ entry ∈ node.properties, ∃ value, evalLiteralExpr entry.2 = .ok value

theorem matchesProperties_returns {properties : List (String × Expression)}
    (literal : ∀ entry ∈ properties, ∃ value, evalLiteralExpr entry.2 = .ok value)
    (bound : BoundCommit)
    : ∃ truth, matchesProperties bound properties = .ok truth := by
  induction properties with
  | nil => exact ⟨true, rfl⟩
  | cons entry rest ih =>
    obtain ⟨key, expected⟩ := entry
    obtain ⟨⟨value, evaluated⟩, others⟩ := List.forall_mem_cons.mp literal
    obtain ⟨truth, matched⟩ := ih others
    rw [matchesProperties, show evalLiteralExpr expected = .ok value from evaluated]
    by_cases same : (propertyOf bound key).eq value
    · exact ⟨truth, by simp [bind, Except.bind, same, matched]⟩
    · exact ⟨false, by simp [bind, Except.bind, same]⟩

section Returns

variable [Blake3] {store now : DiskStore} {fuel : Nat} {node : NodePattern}

theorem tryBindNode_returns (alike : Alike store now) (literal : Literal node) {hash : Hash}
    (shown : (shownAt fuel store hash).isSome)
    : ∃ commit middle result last, lift (getCommit hash) now = .ok commit middle
        ∧ tryBindNode fuel node hash commit middle = .ok result last := by
  rw [← shownAt_alike alike] at shown
  obtain ⟨bound, last, read⟩ := exists_eq_ok shown
  obtain ⟨commit, middle, loaded, bind⟩ := bind_eq_ok.mp read
  obtain ⟨truth, matched⟩ := matchesProperties_returns literal bound
  refine ⟨commit, middle, if truth then some bound else none, last, loaded, ?_⟩
  rw [tryBindNode, bind_of_ok bind, matched]
  cases truth <;> rfl

theorem bindRows_returns (alike : Alike store now) (literal : Literal node)
    (grow : BoundCommit → Option Bindings) {commits : List Hash}
    (shown : ∀ hash ∈ commits, (shownAt fuel store hash).isSome) (rows : List Bindings)
    : ∃ result last, bindRows fuel node grow commits rows now = .ok result last := by
  induction commits generalizing now rows with
  | nil => exact ⟨rows, now, rfl⟩
  | cons hash rest ih =>
    obtain ⟨here, others⟩ := List.forall_mem_cons.mp shown
    obtain ⟨commit, middle, bound, last, loaded, tried⟩ := tryBindNode_returns alike literal here
    obtain ⟨-, -, still⟩ := tryBindNode_eq_ok alike loaded tried
    rw [bindRows, bind_of_ok loaded, bind_of_ok tried]
    exact ih still others _

theorem extendRows_returns [HashSeed] (alike : Alike store now) (literal : Literal node)
    {edge : EdgePattern} {prevVar var : String} {children : AssocMap Hash (List Hash)}
    {rows : List Bindings}
    (expands : ∀ row ∈ rows, ∃ src found state, AssocMap.lookup prevVar row = some src
      ∧ expandEdge fuel edge src.hash children store = .ok found state
      ∧ ∀ hash ∈ found, (shownAt fuel store hash).isSome)
    (next : List Bindings)
    : ∃ result last,
        extendRows fuel edge node prevVar var children rows next now = .ok result last := by
  induction rows generalizing now next with
  | nil => exact ⟨next, now, rfl⟩
  | cons row rest ih =>
    obtain ⟨⟨src, found, state, held, expanded, shown⟩, others⟩ := List.forall_mem_cons.mp expands
    obtain ⟨middle, expanded', -⟩ := expandEdge_follows fuel edge src.hash children _ _ _ _
      alike expanded
    have looked := (expandEdge_kept (.within looks_frame) loadCommit_looks edge src.hash).of_ok
      expanded'
    have still := alike.after looked
    obtain ⟨more, last, bound⟩ := bindRows_returns still literal (agreeing var row) shown next
    obtain ⟨-, still', -⟩ := bindRows_eq_ok still bound
    rw [extendRows, held]
    dsimp only
    rw [bind_of_ok expanded', bindCandidates_eq, bind_of_ok bound]
    exact ih still' others more

end Returns

section Paths

variable [Blake3] [HashSeed] {store now last : DiskStore} {fuel : Nat} {tried : Hash → Prop}
  {leads : EdgePattern → Hash → Hash → Prop} {children : AssocMap Hash (List Hash)}
  {first node : NodePattern} {edge : EdgePattern}
  {done rest steps : List (EdgePattern × NodePattern)} {rows : List Bindings}

/-- The edges lead from what is tried to what they should, which is tried as well. -/
structure Leading (fuel : Nat) (store : DiskStore) (tried : Hash → Prop)
    (leads : EdgePattern → Hash → Hash → Prop) (children : AssocMap Hash (List Hash))
    (steps : List (EdgePattern × NodePattern)) : Prop where
  expands : ∀ step ∈ steps, ∀ hash, tried hash → ∀ found state,
    expandEdge fuel step.1 hash children store = .ok found state
    → ∀ other, other ∈ found ↔ leads step.1 hash other
  inside : ∀ step ∈ steps, ∀ hash other, tried hash → leads step.1 hash other → tried other

theorem Leading.of_append {front : List (EdgePattern × NodePattern)}
    (leading : Leading fuel store tried leads children (front ++ rest))
    : Leading fuel store tried leads children front :=
  ⟨fun step member => leading.expands step (List.mem_append_left _ member),
    fun step member => leading.inside step (List.mem_append_left _ member)⟩

omit [Blake3] [HashSeed] in
theorem IsAssignment.all_tried {hashes : List Hash} {passes : NodePattern → Hash → Prop}
    (assigned : IsAssignment tried passes leads first steps hashes)
    (inside : ∀ step ∈ steps, ∀ hash other, tried hash → leads step.1 hash other → tried other)
    {place : Nat} {hash : Hash} (here : hashes[place]? = some hash)
    : tried hash := by
  induction place generalizing hash with
  | zero => exact assigned.starts hash (by rw [List.head?_eq_getElem?, here])
  | succ place ih =>
    have bounded := (List.getElem?_eq_some_iff.mp here).1
    rw [assigned.length_eq] at bounded
    have before : hashes[place]? = some (hashes.get ⟨place, by rw [assigned.length_eq]; omega⟩) :=
      List.getElem?_eq_getElem _
    have step : steps[place]? = some (steps.get ⟨place, by omega⟩) := List.getElem?_eq_getElem _
    exact inside _ (List.mem_of_getElem? step) _ _ (ih before)
      (assigned.follows place _ _ _ step before here)

def After (leads : EdgePattern → Hash → Hash → Prop) (edge : EdgePattern) (place : Nat)
    (front : List Hash) (hash : Hash) : Prop :=
  ∃ source, front[place]? = some source ∧ leads edge source hash

omit [Blake3] [HashSeed] in
/-- One step more: a commit that the edge leads to, that the node fits and that agrees with what its
name has.
-/
theorem isMatch_concat {passes : NodePattern → Hash → Prop} (hashes : List Hash)
    : IsMatch tried passes leads first (done ++ [(edge, node)]) hashes
      ↔ Extended (After leads edge done.length) (passes node) (namesOf first done)
          (nameAt (done.length + 1) node) (IsMatch tried passes leads first done) hashes := by
  have zipped {front : List Hash} {hash : Hash} (length_eq : front.length = done.length + 1)
      : (namesOf first (done ++ [(edge, node)])).zip (front ++ [hash])
        = (namesOf first done).zip front ++ [(nameAt (done.length + 1) node, hash)] := by
    rw [namesOf_concat, List.zip_append (by rw [length_namesOf, length_eq])]
    rfl
  constructor
  · intro isMatch
    obtain ⟨front, hash, source, rfl, assigned, at_, led, fit, -⟩ :=
      isAssignment_concat.mp isMatch.toIsAssignment
    have named := isMatch.named
    rw [zipped assigned.length_eq] at named
    refine ⟨front, hash, rfl,
      ⟨assigned, fun name one two here there => named name one two (by simp [here]) (by simp [there])⟩,
      ⟨source, at_, led⟩, fit, fun other here => ?_⟩
    exact named (nameAt (done.length + 1) node) other hash (by simp [here]) (by simp)
  · rintro ⟨front, hash, rfl, isMatch, ⟨source, at_, led⟩, fit, shared⟩
    refine ⟨isAssignment_concat.mpr ⟨front, hash, source, rfl, isMatch.toIsAssignment, at_, led, fit,
      fun other hash' var member named same => ?_⟩, ?_⟩
    · -- nodes of one variable have one name
      obtain ⟨place, here, read⟩ := mem_zip_iff.mp member
      refine shared hash' (mem_zip_iff.mpr ⟨place, ?_, read⟩)
      simp [namesOf, here, nameAt, named, same]
    · rw [zipped isMatch.length_eq]
      intro name one two here there
      rcases List.mem_append.mp here with old | new
      · rcases List.mem_append.mp there with old' | new'
        · exact isMatch.named name one two old old'
        · cases List.mem_singleton.mp new'
          exact shared one old
      · cases List.mem_singleton.mp new
        rcases List.mem_append.mp there with old' | new'
        · exact (shared two old').symm
        · cases List.mem_singleton.mp new'
          rfl

def candidatesOf (fuel : Nat) (store : DiskStore) (edge : EdgePattern) (prevVar : String)
    (children : AssocMap Hash (List Hash)) (row : Bindings) : List Hash :=
  match AssocMap.lookup prevVar row with
  | none => []
  | some src => (Run.valueOf (expandEdge fuel edge src.hash children store)).getD []

theorem extensions_eq_grown (prevVar var : String)
    : extensions fuel store edge node prevVar var children
      = grown fuel store node var (candidatesOf fuel store edge prevVar children) := by
  funext row
  unfold extensions grown candidatesOf
  cases AssocMap.lookup prevVar row <;> rfl

omit [HashSeed] in
/-- A row binds the last node, to a commit that is tried. -/
theorem Lists.exists_source (lists : Lists store (namesOf first done)
      (IsMatch tried (Passes store) leads first done) rows)
    (inside : ∀ step ∈ done, ∀ hash other, tried hash → leads step.1 hash other → tried other)
    {prevVar : String} (named : (namesOf first done)[done.length]? = some prevVar) {row : Bindings}
    (here : row ∈ rows)
    : ∃ src, AssocMap.lookup prevVar row = some src ∧ tried src.hash := by
  obtain ⟨hashes, reads⟩ := exists_reads (lists.binds row here)
  have isMatch := (lists.mem_iff hashes).mp ⟨row, here, reads⟩
  obtain ⟨source, bound⟩ := Option.isSome_iff_exists.mp
    ((lists.binds row here prevVar).mpr (List.mem_of_getElem? named))
  obtain ⟨src, held, rfl⟩ := Option.map_eq_some_iff.mp bound
  exact ⟨src, held, isMatch.toIsAssignment.all_tried inside
    ((hashAt_of_reads reads named).symm.trans bound)⟩

/-- Rows that were extended along an edge are the matches of one node more. -/
theorem Leading.extendRows (alike : Alike store now)
    (leading : Leading fuel store tried leads children done)
    (leadsOn : ∀ hash, tried hash → ∀ found state,
      expandEdge fuel edge hash children store = .ok found state
      → ∀ other, other ∈ found ↔ leads edge hash other)
    (lists : Lists store (namesOf first done) (IsMatch tried (Passes store) leads first done) rows)
    {prevVar : String} (named : (namesOf first done)[done.length]? = some prevVar)
    {longer : List Bindings}
    (ran : extendRows fuel edge node prevVar (nameAt (done.length + 1) node) children rows [] now
      = .ok longer last)
    : Alike store last
      ∧ Lists store (namesOf first (done ++ [(edge, node)]))
        (IsMatch tried (Passes store) leads first (done ++ [(edge, node)])) longer := by
  obtain ⟨all, still, expands⟩ := extendRows_eq_ok alike ran
  have candidates {row : Bindings} (here : row ∈ rows) : ∃ src found state,
      AssocMap.lookup prevVar row = some src
      ∧ expandEdge fuel edge src.hash children store = .ok found state
      ∧ candidatesOf fuel store edge prevVar children row = found
      ∧ (∀ hash ∈ found, (shownAt fuel store hash).isSome) := by
    obtain ⟨src, found, state, held, expanded, shown⟩ := expands row here
    exact ⟨src, found, state, held, expanded, by simp [candidatesOf, held, expanded, valueOf], shown⟩
  have offers : Offers fuel store (namesOf first done) rows
      (candidatesOf fuel store edge prevVar children) (After leads edge done.length) := by
    refine ⟨fun row here => ?_, fun row here => ?_, fun row here front reads hash => ?_⟩
    · obtain ⟨src, found, state, -, expanded, rfl, -⟩ := candidates here
      exact nodup_expandEdge expanded
    · obtain ⟨src, found, state, -, -, rfl, shown⟩ := candidates here
      exact shown
    · obtain ⟨src, found, state, held, expanded, rfl, -⟩ := candidates here
      obtain ⟨src', held', tried_⟩ := lists.exists_source leading.inside named here
      cases held.symm.trans held'
      have read := hashAt_of_reads reads named
      rw [hashAt, held, Option.map_some] at read
      rw [leadsOn _ tried_ _ _ expanded, After, ← read]
      simp
  refine ⟨still, ?_⟩
  rw [namesOf_concat, all, List.nil_append, extensions_eq_grown]
  exact (lists.extend offers).congr fun hashes => (isMatch_concat hashes).symm

/-- One round of a pattern: the rows are extended along one edge. -/
theorem matchSteps_cons (rows : List Bindings) (budget : Nat) {last : NodePattern}
    (before : (pathElements first done)[2 * done.length]? = some (.node last))
    : matchSteps fuel (pathElements first (done ++ (edge, node) :: rest)) children (budget + 1)
        (2 * done.length + 1) rows now
      = (extendRows fuel edge node (patternNodeVar (.node last) (2 * done.length))
          (nameAt (done.length + 1) node) children rows [] >>= fun rows =>
          matchSteps fuel (pathElements first (done ++ (edge, node) :: rest)) children budget
            (2 * (done.length + 1) + 1) rows) now := by
  have elements := @pathElements_append first done ((edge, node) :: rest)
  rw [List.flatMap_cons] at elements
  have length := @length_pathElements first done
  have atEdge : (pathElements first (done ++ (edge, node) :: rest))[2 * done.length + 1]?
      = some (.edge edge) := by
    rw [elements, List.getElem?_append_right (by omega), length, Nat.sub_self]
    rfl
  have atNode : (pathElements first (done ++ (edge, node) :: rest))[2 * done.length + 1 + 1]?
      = some (.node node) := by
    rw [elements, List.getElem?_append_right (by omega), length, Nat.add_sub_cancel_left]
    rfl
  have atLast : (pathElements first (done ++ (edge, node) :: rest))[2 * done.length + 1 - 1]?
      = some (.node last) := by
    rw [Nat.add_sub_cancel, elements, List.getElem?_append_left (by omega), before]
  rw [matchSteps, if_pos (List.getElem?_eq_some_iff.mp atNode).1,
    bind_of_ok (index_of_some atEdge now)]
  dsimp only
  rw [bind_of_ok (index_of_some atNode now)]
  dsimp only
  rw [bind_of_ok (index_of_some atLast now)]
  rfl

theorem matchSteps_end (rows : List Bindings) (budget : Nat)
    : matchSteps fuel (pathElements first done) children budget (2 * done.length + 1) rows
      = pure rows := by
  cases budget with
  | zero => rfl
  | succ budget => rw [matchSteps, if_neg (by rw [length_pathElements]; omega)]

/-- After each round the rows are the matches for the nodes so far. -/
theorem matchSteps_lists (alike : Alike store now)
    (leading : Leading fuel store tried leads children (done ++ rest))
    (lists : Lists store (namesOf first done) (IsMatch tried (Passes store) leads first done) rows)
    {budget : Nat} (enough : rest.length ≤ budget) {result : List Bindings}
    (ran : matchSteps fuel (pathElements first (done ++ rest)) children budget (2 * done.length + 1)
      rows now = .ok result last)
    : Lists store (namesOf first (done ++ rest))
        (IsMatch tried (Passes store) leads first (done ++ rest)) result := by
  induction rest generalizing done rows now budget with
  | nil =>
    rw [List.append_nil] at ran ⊢
    rw [matchSteps_end] at ran
    cases ran
    exact lists
  | cons step rest ih =>
    obtain ⟨edge, node⟩ := step
    obtain ⟨budget, rfl⟩ := Nat.exists_eq_add_of_le' (Nat.le_of_add_left_le enough)
    obtain ⟨before, isLast, named⟩ := exists_lastName first done
    rw [matchSteps_cons rows budget isLast] at ran
    obtain ⟨longer, next, extended, onward⟩ := bind_eq_ok.mp ran
    rw [List.append_cons] at leading onward ⊢
    obtain ⟨still, longerLists⟩ := leading.of_append.of_append.extendRows alike
      (leading.expands (edge, node) (by simp)) lists named extended
    exact ih still leading longerLists (Nat.le_of_succ_le_succ enough)
      (by rwa [List.length_append, List.length_singleton])

/-- Enough fuel for every edge, and literals in every node, make a pattern return. -/
theorem matchSteps_returns (alike : Alike store now)
    (leading : Leading fuel store tried leads children (done ++ rest))
    (shown : ∀ hash, tried hash → (shownAt fuel store hash).isSome)
    (returns : ∀ step ∈ rest, ∀ hash, tried hash → ∃ found state,
      expandEdge fuel step.1 hash children store = .ok found state)
    (literal : ∀ step ∈ rest, Literal step.2)
    (lists : Lists store (namesOf first done) (IsMatch tried (Passes store) leads first done) rows)
    {budget : Nat} (enough : rest.length ≤ budget)
    : ∃ result last, matchSteps fuel (pathElements first (done ++ rest)) children budget
        (2 * done.length + 1) rows now = .ok result last := by
  induction rest generalizing done rows now budget with
  | nil =>
    rw [List.append_nil, matchSteps_end]
    exact ⟨rows, now, rfl⟩
  | cons step rest ih =>
    obtain ⟨edge, node⟩ := step
    obtain ⟨budget, rfl⟩ := Nat.exists_eq_add_of_le' (Nat.le_of_add_left_le enough)
    obtain ⟨before, isLast, named⟩ := exists_lastName first done
    obtain ⟨literalHere, others⟩ := List.forall_mem_cons.mp literal
    obtain ⟨returnsHere, later⟩ := List.forall_mem_cons.mp returns
    rw [matchSteps_cons rows budget isLast]
    rw [List.append_cons] at leading ⊢
    obtain ⟨longer, next, extended⟩ := @extendRows_returns _ _ _ _ _ _ alike literalHere edge _
      (nameAt (done.length + 1) node) children rows
      (fun row here => by
        obtain ⟨src, held, tried_⟩ :=
          lists.exists_source leading.of_append.of_append.inside named here
        obtain ⟨found, state, expanded⟩ := returnsHere _ tried_
        refine ⟨src, found, state, held, expanded, fun hash member => shown hash ?_⟩
        have last : (edge, node) ∈ (done ++ [(edge, node)]) ++ rest := by simp
        exact leading.inside _ last _ hash tried_
          ((leading.expands _ last _ tried_ _ _ expanded hash).mp member)) []
    obtain ⟨still, longerLists⟩ := leading.of_append.of_append.extendRows alike
      (leading.expands (edge, node) (by simp)) lists named extended
    rw [bind_of_ok extended]
    have finished := ih still leading later others longerLists (Nat.le_of_succ_le_succ enough)
    rwa [List.length_append, List.length_singleton] at finished

end Paths

-- The commits of a query

section Universe

variable [Blake3] [HashSeed] {store : DiskStore} {context source target : Hash} {edge : EdgePattern}
  {children : AssocMap Hash (List Hash)}

def InUniverse (store : DiskStore) (context hash : Hash) : Prop :=
  store.view.Reaches context hash ∨ Listed store hash

/-- An edge leads from a commit to another, by the map of children of the store. -/
def LeadsTo (store : DiskStore) (edge : EdgePattern) (source target : Hash) : Prop :=
  ∃ fuel children middle found last, childrenMap fuel store = .ok children middle
    ∧ expandEdge fuel edge source children store = .ok found last ∧ target ∈ found

omit [Blake3] [HashSeed] in
theorem Leads.congr {view : View} {other : AssocMap Hash (List Hash)}
    (same : ∀ hash child, child ∈ (AssocMap.lookup hash children).getD []
      ↔ child ∈ (AssocMap.lookup hash other).getD []) {hops : Nat}
    : Leads view children edge hops source target ↔ Leads view other edge hops source target := by
  induction hops generalizing target with
  | zero => rfl
  | succ hops ih =>
    refine exists_congr fun middle => and_congr ih ?_
    unfold stepsOf
    split
    · rfl
    · exact same middle target

omit [HashSeed] in
theorem InUniverse.step (charted : Charted store children) {toward : Bool}
    (inside : InUniverse store context source)
    (step : target ∈ stepsOf store.view children toward source)
    : InUniverse store context target := by
  unfold stepsOf at step
  split at step
  · rcases inside with reaches | listed
    · exact .inl (reaches.tail step)
    · exact .inr (listed.of_reaches (.single step))
  · exact .inr ((charted source target).mp step).1

omit [HashSeed] in
theorem InUniverse.leads (charted : Charted store children)
    (inside : InUniverse store context source) {hops : Nat}
    (leads : Leads store.view children edge hops source target)
    : InUniverse store context target := by
  induction hops generalizing target with
  | zero => exact leads ▸ inside
  | succ hops ih =>
    obtain ⟨middle, before, step⟩ := leads
    exact (ih before).step charted step

/-- Following an edge from a commit of a query returns. -/
theorem InUniverse.expandEdge_returns (readable : store.Readable)
    (whole : ∀ hash, InUniverse store context hash → store.view.Whole hash)
    (charted : Charted store children) (inside : InUniverse store context source) {fuel : Nat}
    (enough : hopBudget store (hopBounds edge.multiplier edge.edgeType).2 ≤ fuel)
    : ∃ found last, expandEdge fuel edge source children store = .ok found last := by
  obtain ⟨universe_, known, member, closed⟩ := exists_known_closed
    (fun hash here => (whole hash here).commit) (fun hash here other => here.step charted) inside
  have few := Nat.mul_le_mul_right ((hopBounds edge.multiplier edge.edgeType).2 + 1)
    (Finset.card_le_card known)
  exact expandEdge_returns_of readable (fun _ => whole source inside) member closed
    (le_trans (Nat.add_le_add_left few 1) enough)

theorem leadsTo_iff (settled : store.Settled) (coherent : store.Coherent)
    (whole : ∀ hash, InUniverse store context hash → store.view.Whole hash)
    (charted : Charted store children) (inside : InUniverse store context source)
    : LeadsTo store edge source target
      ↔ target ≠ source ∧ ∃ hops, (hopBounds edge.multiplier edge.edgeType).1 ≤ hops
          ∧ hops ≤ (hopBounds edge.multiplier edge.edgeType).2
          ∧ Leads store.view children edge hops source target := by
  have readable : store.Readable := ⟨settled.sane, coherent⟩
  have agree {other : AssocMap Hash (List Hash)} (charted' : Charted store other) {hops : Nat}
      : Leads store.view other edge hops source target
        ↔ Leads store.view children edge hops source target :=
    Leads.congr fun hash child => (charted' hash child).trans (charted hash child).symm
  constructor
  · rintro ⟨fuel, other, middle, found, last, mapped, expanded, member⟩
    have := (mem_expandEdge readable (fun _ => whole source inside) expanded).mp member
    simpa only [agree (childrenMap_charted settled coherent mapped)] using this
  · intro led
    obtain ⟨other, middle, mapped, -⟩ := childrenMap_returns settled coherent
      (fun name tip held => whole tip (.inr ⟨name, tip, held, .refl⟩))
      (Nat.le_max_left store.budget (hopBudget store (hopBounds edge.multiplier edge.edgeType).2))
    have charted' := childrenMap_charted settled coherent mapped
    obtain ⟨found, last, expanded⟩ := inside.expandEdge_returns readable whole charted'
      (Nat.le_max_right store.budget _)
    refine ⟨_, other, middle, found, last, mapped, expanded, ?_⟩
    rw [mem_expandEdge readable (fun _ => whole source inside) expanded]
    simpa only [agree charted'] using led

/-- From a commit of a query an edge leads to commits of it. -/
theorem leading_of_charted (settled : store.Settled) (coherent : store.Coherent)
    (whole : ∀ hash, InUniverse store context hash → store.view.Whole hash)
    (charted : Charted store children) (fuel : Nat) (steps : List (EdgePattern × NodePattern))
    : Leading fuel store (InUniverse store context) (LeadsTo store) children steps where
  expands step _ hash inside found last expanded other := by
    rw [mem_expandEdge ⟨settled.sane, coherent⟩ (fun _ => whole hash inside) expanded,
      leadsTo_iff settled coherent whole charted inside]
  inside step _ hash other inside led := by
    obtain ⟨-, hops, -, -, leads⟩ := (leadsTo_iff settled coherent whole charted inside).mp led
    exact inside.leads charted leads

-- What a query goes over

omit [Blake3] [HashSeed] in
theorem nodup_unionHashes {first : List Hash} (distinct : first.Nodup) (second : List Hash)
    : (unionHashes first second).Nodup := by
  unfold unionHashes
  induction second generalizing first with
  | nil => exact distinct
  | cons hash rest ih =>
    rw [List.foldl_cons]
    refine ih ?_
    split
    · exact distinct
    · rename_i new
      exact List.nodup_append.mpr ⟨distinct, List.nodup_singleton hash, by
        rintro other member _ same rfl
        exact new (List.mem_singleton.mp same ▸ member)⟩

variable {now last : DiskStore} {fuel : Nat} {first : NodePattern}
  {steps : List (EdgePattern × NodePattern)} {commits : List Hash} {rows : List Bindings}

omit [HashSeed] in
theorem nodup_collectAncestors (readable : store.Readable) {ancestors : List Hash}
    (collected : collectAncestors fuel context store = .ok ancestors last)
    : ancestors.Nodup :=
  Worklist.nodup_walk (walkParents_eq_ok readable collected).1 List.nodup_nil

/-- The commits a query tries, each once, all of them stored, and the children of each. Its patterns
are matched with these.
-/
structure Surveyed (fuel : Nat) (store : DiskStore) (context : Hash) (commits : List Hash)
    (children : AssocMap Hash (List Hash)) (now : DiskStore) : Prop where
  looks : Looks store now
  distinct : commits.Nodup
  all : ∀ hash, hash ∈ commits ↔ InUniverse store context hash
  whole : ∀ hash, InUniverse store context hash → store.view.Whole hash
  charted : Charted store children
  matched : ∀ clause, execMatch fuel clause context store
    = matchPatterns fuel commits children clause.patterns [] now

theorem surveyed_of_ok (settled : store.Settled) (coherent : store.Coherent)
    {ancestors reachable : List Hash} {one two : DiskStore}
    (collected : collectAncestors fuel context store = .ok ancestors one)
    (walked : reachableCommits fuel one = .ok reachable two)
    (mapped : childrenMap fuel two = .ok children now)
    : Surveyed fuel store context (unionHashes ancestors (HashSeed.order reachable)) children now := by
  have readable : store.Readable := ⟨settled.sane, coherent⟩
  have looksOne := (collectAncestors_within looks_frame loadCommit_looks fuel context).of_ok collected
  have looksTwo := looks_frame.trans looksOne
    ((reachableCommits_within looks_frame loadCommit_looks fuel).of_ok walked)
  have looks := (childrenMap_within looks_frame loadCommit_looks fuel).of_ok mapped
  obtain ⟨wholeContext, members⟩ := collectAncestors_eq_ok readable collected
  obtain ⟨stored, reached⟩ := reachableCommits_eq_ok (settled.looks looksOne)
    (looksOne.coherent settled.sane coherent) walked
  have listed := Looks.listed settled coherent looksOne
  refine ⟨looks_frame.trans looksTwo looks,
    nodup_unionHashes (nodup_collectAncestors readable collected) _,
    fun hash => ?_, fun hash inside other reaches => ?_, fun hash child => ?_, fun clause => ?_⟩
  · rw [mem_unionHashes, (HashSeed.perm reachable).mem_iff, members, reached]
    exact or_congr_right (listed hash)
  · rcases inside with inside | isListed
    · exact wholeContext other (inside.trans reaches)
    · have later := (reached other).mpr ((listed other).mpr (isListed.of_reaches reaches))
      rw [← looksOne.view readable]
      exact stored other later
  · rw [childrenMap_charted (settled.looks looksTwo) (looksTwo.coherent settled.sane coherent) mapped
        hash child, looksTwo.view readable]
    exact and_congr_left fun _ => Looks.listed settled coherent looksTwo child
  · have liftedOne : lift (collectAncestors fuel context) store = .ok ancestors one :=
      mapErr_eq_ok.mpr collected
    have liftedTwo : lift (reachableCommits fuel) one = .ok reachable two :=
      mapErr_eq_ok.mpr walked
    have liftedThree : lift (childrenMap fuel) two = .ok children now := mapErr_eq_ok.mpr mapped
    rw [execMatch, bind_of_ok liftedOne, bind_of_ok liftedTwo, bind_of_ok liftedThree]

/-- A query that returned. -/
theorem surveyed_of_execMatch (settled : store.Settled) (coherent : store.Coherent)
    {clause : MatchClause} (ran : execMatch fuel clause context store = .ok rows last)
    : ∃ commits children now, Surveyed fuel store context commits children now := by
  obtain ⟨ancestors, reachable, children, one, two, now, collected, -, walked, -, mapped, -, -⟩ :=
    execMatch_eq_ok ran
  exact ⟨_, children, now, surveyed_of_ok settled coherent collected walked mapped⟩

/-- A query with enough fuel for its walks. -/
theorem surveyed_of_budget (orderly : store.Orderly) (whole : store.view.Whole context)
    (enough : store.budget ≤ fuel)
    : ∃ commits children now, Surveyed fuel store context commits children now := by
  have readable := orderly.readable
  obtain ⟨ancestors, one, collected, looksOne, -, -⟩ := collectAncestors_spec readable whole enough
  have covers {later : DiskStore} (looks : Looks store later) (hash : Hash) (commit : Commit)
      (held : later.view.commit hash = some commit) : hash ∈ store.known :=
    mem_known_of_commit (looks.view readable ▸ held)
  have still {later : DiskStore} (looks : Looks store later)
      : 1 + ∑ hash ∈ store.known, (later.view.parents hash).length ≤ fuel := by
    rw [looks.view readable]
    exact enough
  have orderlyOne := orderly.looks looksOne
  obtain ⟨reachable, two, walked, looks, -, -⟩ := reachableCommits_returns_of
    orderlyOne.settled orderlyOne.coherent (fun _ _ => orderlyOne.whole) (covers looksOne)
    (still looksOne)
  have looksTwo := looks_frame.trans looksOne looks
  have orderlyTwo := orderly.looks looksTwo
  obtain ⟨children, now, mapped, -⟩ := childrenMap_returns_of
    orderlyTwo.settled orderlyTwo.coherent (fun _ _ => orderlyTwo.whole) (covers looksTwo)
    (still looksTwo)
  exact ⟨_, children, now,
    surveyed_of_ok orderly.settled orderly.coherent collected walked mapped⟩

theorem Surveyed.leading (surveyed : Surveyed fuel store context commits children now)
    (settled : store.Settled) (coherent : store.Coherent) (steps : List (EdgePattern × NodePattern))
    : Leading fuel store (InUniverse store context) (LeadsTo store) children steps :=
  leading_of_charted settled coherent surveyed.whole surveyed.charted fuel steps

-- Whole patterns

omit [Blake3] [HashSeed] in
theorem isMatch_nil {tried : Hash → Prop} {passes : NodePattern → Hash → Prop}
    {leads : EdgePattern → Hash → Hash → Prop} {hashes : List Hash}
    : IsMatch tried passes leads first [] hashes
      ↔ ∃ hash, hashes = [hash] ∧ tried hash ∧ passes first hash := by
  rw [← isAssignment_nil]
  refine ⟨IsMatch.toIsAssignment, fun assigned => ⟨assigned, fun name hash hash' here there => ?_⟩⟩
  obtain ⟨only, rfl, -⟩ := isAssignment_nil.mp assigned
  cases List.mem_singleton.mp here
  cases List.mem_singleton.mp there
  rfl

omit [HashSeed] in
/-- The first node alone is assigned each commit that it fits. -/
theorem bindFirst_lists (alike : Alike store now) (distinct : commits.Nodup)
    {tried : Hash → Prop} (all : ∀ hash, hash ∈ commits ↔ tried hash)
    {leads : EdgePattern → Hash → Hash → Prop}
    (ran : bindFirst fuel first commits [] now = .ok rows last)
    : Alike store last
      ∧ Lists store (namesOf first []) (IsMatch tried (Passes store) leads first []) rows := by
  rw [bindFirst_eq] at ran
  obtain ⟨found, still, shown⟩ := bindRows_eq_ok alike ran
  have grown_ : rows = [[]].flatMap (grown fuel store first (nameAt 0 first) fun _ => commits) := by
    rw [found, List.flatMap_singleton, List.nil_append, grown]
    refine List.filterMap_congr fun hash _ => ?_
    cases fitting fuel store first hash <;> rfl
  have offers : Offers fuel store [] [[]] (fun _ => commits) (fun _ hash => tried hash) :=
    ⟨fun _ _ => distinct, fun _ _ => shown, fun _ _ _ _ => all⟩
  refine ⟨still, grown_ ▸ ((lists_start store).extend offers).congr fun hashes => ?_⟩
  rw [isMatch_nil]
  simp [Extended]

theorem Surveyed.bindFirst_lists (surveyed : Surveyed fuel store context commits children now)
    {state : DiskStore} (alike : Alike store state)
    (ran : bindFirst fuel first (HashSeed.order commits) [] state = .ok rows last)
    : Alike store last
      ∧ Lists store (namesOf first [])
        (IsMatch (InUniverse store context) (Passes store) (LeadsTo store) first []) rows :=
  have order := HashSeed.perm commits
  Engine.bindFirst_lists alike (order.nodup_iff.mpr surveyed.distinct)
    (fun hash => order.mem_iff.trans (surveyed.all hash)) ran

theorem matchPattern_path
    : matchPattern fuel ⟨pathElements first steps⟩ commits children
      = bindFirst fuel first (HashSeed.order commits) [] >>= fun rows =>
          matchSteps fuel (pathElements first steps) children (pathElements first steps).length 1
            rows := by
  rw [matchPattern, if_neg (by simp [pathElements])]
  rfl

/-- The rows of a pattern are its matches. -/
theorem Surveyed.matchPattern_lists (surveyed : Surveyed fuel store context commits children now)
    (settled : store.Settled) (coherent : store.Coherent) {state : DiskStore}
    (alike : Alike store state)
    (ran : matchPattern fuel ⟨pathElements first steps⟩ commits children state = .ok rows last)
    : Lists store (namesOf first steps)
        (IsMatch (InUniverse store context) (Passes store) (LeadsTo store) first steps) rows := by
  rw [matchPattern_path] at ran
  obtain ⟨starts, middle, bound, stepped⟩ := bind_eq_ok.mp ran
  obtain ⟨still, lists⟩ := surveyed.bindFirst_lists alike bound
  exact @matchSteps_lists _ _ store middle last fuel _ _ children first [] steps starts still
    (surveyed.leading settled coherent steps) lists _
    (by rw [length_pathElements]; omega) _ stepped

/-- A pattern of literals returns, with enough fuel for its edges and the documents. -/
theorem Surveyed.matchPattern_returns (surveyed : Surveyed fuel store context commits children now)
    (settled : store.Settled) (coherent : store.Coherent)
    (shown : ∀ hash, InUniverse store context hash → (shownAt fuel store hash).isSome)
    (enough : ∀ step ∈ steps, hopBudget store (hopBounds step.1.multiplier step.1.edgeType).2 ≤ fuel)
    (literal : ∀ node ∈ nodesOf first steps, Literal node)
    : ∃ rows last,
        matchPattern fuel ⟨pathElements first steps⟩ commits children now = .ok rows last := by
  have readable : store.Readable := ⟨settled.sane, coherent⟩
  have alike := surveyed.looks.alike readable
  obtain ⟨starts, middle, bound⟩ := bindRows_returns alike (literal first List.mem_cons_self) _
    (fun hash member => shown hash
      ((surveyed.all hash).mp ((HashSeed.perm commits).mem_iff.mp member))) []
  rw [← bindFirst_eq] at bound
  obtain ⟨still, lists⟩ := surveyed.bindFirst_lists alike bound
  rw [matchPattern_path, bind_of_ok bound]
  exact @matchSteps_returns _ _ store middle fuel _ _ children first [] steps starts still
    (surveyed.leading settled coherent steps) shown
    (fun step member hash inside => inside.expandEdge_returns readable surveyed.whole
      surveyed.charted (enough step member))
    (fun step member => literal step.2 (List.mem_cons_of_mem _ (List.mem_map_of_mem member)))
    lists _ (by rw [length_pathElements]; omega)

theorem matchPatterns_of_single {pattern : Pattern}
    (matched : matchPattern fuel pattern commits children now = .ok rows last)
    : matchPatterns fuel commits children [pattern] [] now = .ok rows last := by
  rw [matchPatterns, bind_of_ok matched]
  rfl

omit [HashSeed] in
theorem commit_of_shown (readable : store.Readable) {bound : BoundCommit} {hash : Hash}
    (shown : Shown store hash bound)
    : ∃ commit, store.view.commit hash = some commit := by
  obtain ⟨fuel, shown⟩ := shown
  obtain ⟨commit, middle, loaded, -⟩ := bind_eq_ok.mp (eq_ok_of_valueOf shown)
  exact ⟨commit, loadCommit_eq_ok readable (mapErr_eq_ok.mp loaded)⟩

omit [HashSeed] in
/-- A commit with a root that is not stored is never shown. -/
theorem not_shown_of_absent (readable : store.Readable) {hash : Hash} {commit : Commit}
    (held : store.view.commit hash = some commit) (root : commit.rootHamt ≠ Hash.zero)
    (absent : store.view commit.rootHamt = none) (bound : BoundCommit)
    : ¬ Shown store hash bound := by
  rintro ⟨fuel, shown⟩
  obtain ⟨other, middle, loaded, bind⟩ := bind_eq_ok.mp (eq_ok_of_valueOf shown)
  have loaded : loadCommit hash store = .ok other middle := mapErr_eq_ok.mp loaded
  cases held.symm.trans (loadCommit_eq_ok readable loaded)
  have looks := (loadCommit_looks hash).of_ok loaded
  obtain ⟨entries, next, listed, -⟩ := bind_eq_ok.mp bind
  have listed := mapErr_eq_ok.mp listed
  rw [hamtEntries, if_neg root] at listed
  obtain ⟨traced, listed, -⟩ := zoom_eq_ok.mp listed
  cases fuel with
  | zero => cases listed
  | succ fuel =>
    obtain ⟨node, _, loaded, -⟩ := bind_eq_ok.mp listed
    obtain ⟨_, _, read, -⟩ := bind_eq_ok.mp loaded
    have unseen : middle.cas.view commit.rootHamt = none :=
      (congrFun (looks.view readable) commit.rootHamt).trans absent
    have valid : LawfulCas.Valid middle.cas.store := (looks.readable readable).sane.valid
    obtain ⟨_, -, outcome⟩ := Traced.getRecord_spec valid commit.rootHamt
    simp only [unseen] at outcome
    obtain ⟨error, failed⟩ := outcome
    cases read.symm.trans failed

omit [HashSeed] in
/-- A commit with an empty document is shown. -/
theorem shown_of_empty (readable : store.Readable) {hash : Hash} {commit : Commit}
    (held : store.view.commit hash = some commit) (root : commit.rootHamt = Hash.zero)
    : ∃ bound, Shown store hash bound := by
  obtain ⟨middle, loaded, -⟩ := loadCommit_of_held readable held
  have lifted : lift (getCommit hash) store = .ok commit middle := mapErr_eq_ok.mpr loaded
  refine ⟨{ hash, commit, state := flattenEntries [] }, 0, ?_⟩
  rw [shownAt, readBound, bind_of_ok lifted, bindCommit, hamtEntries, if_pos root]
  rfl

/-- A query of one pattern that returned has seen every commit it tries with its document. -/
theorem shown_of_execMatch (orderly : store.Orderly) {rows : List Bindings}
    (ran : execMatch fuel ⟨[⟨pathElements first steps⟩]⟩ context store = .ok rows last) {hash : Hash}
    (inside : InUniverse store context hash)
    : ∃ bound, Shown store hash bound := by
  obtain ⟨commits, children, now, surveyed⟩ := surveyed_of_execMatch orderly.settled orderly.coherent ran
  rw [surveyed.matched] at ran
  have matched := matchPatterns_single ran
  rw [matchPattern_path] at matched
  obtain ⟨starts, middle, bound, -⟩ := bind_eq_ok.mp matched
  rw [bindFirst_eq] at bound
  obtain ⟨-, -, shown⟩ := bindRows_eq_ok (surveyed.looks.alike orderly.readable) bound
  obtain ⟨found, shown⟩ := Option.isSome_iff_exists.mp
    (shown hash ((HashSeed.perm commits).mem_iff.mpr ((surveyed.all hash).mpr inside)))
  exact ⟨found, fuel, shown⟩

/-- The rows of a pattern are, each once, the assignments of commits to its nodes, exactly when
every commit that the query tries has a document that can be listed.
-/
theorem execMatch_lists_iff (orderly : store.Orderly)
    (literal : ∀ node ∈ nodesOf first steps, Literal node) (plain : Plain (nodesOf first steps))
    : (∃ budget, ∀ fuel, budget ≤ fuel → ∃ rows last,
        execMatch fuel ⟨[⟨pathElements first steps⟩]⟩ context store = .ok rows last
        ∧ Lists store (namesOf first steps)
          (IsAssignment (InUniverse store context) (Passes store) (LeadsTo store) first steps) rows)
      ↔ ∀ hash, InUniverse store context hash → ∃ bound, Shown store hash bound := by
  constructor
  · rintro ⟨budget, returns⟩ hash inside
    obtain ⟨rows, last, ran, -⟩ := returns budget le_rfl
    exact shown_of_execMatch orderly ran inside
  · intro documents
    have whole (hash : Hash) (inside : InUniverse store context hash) : store.view.Whole hash := by
      obtain ⟨bound, shown⟩ := documents hash inside
      obtain ⟨commit, held⟩ := commit_of_shown orderly.readable shown
      exact orderly.closed.whole held
    have listed : ∀ hash, ∃ fuel, InUniverse store context hash → (shownAt fuel store hash).isSome := by
      intro hash
      by_cases inside : InUniverse store context hash
      · obtain ⟨bound, fuel, shown⟩ := documents hash inside
        exact ⟨fuel, fun _ => by rw [shown]; rfl⟩
      · exact ⟨0, fun inside' => absurd inside' inside⟩
    choose needed shown using listed
    refine ⟨store.budget + store.known.sup needed
      + (steps.map fun step => hopBudget store (hopBounds step.1.multiplier step.1.edgeType).2).sum,
      fun fuel enough => ?_⟩
    obtain ⟨commits, children, now, surveyed⟩ := @surveyed_of_budget _ _ store context fuel orderly
      (whole context (.inl .refl)) (by omega)
    have shown (hash : Hash) (inside : InUniverse store context hash)
        : (shownAt fuel store hash).isSome := by
      obtain ⟨commit, held⟩ := (whole hash inside).commit
      have most : needed hash ≤ store.known.sup needed := Finset.le_sup (mem_known_of_commit held)
      obtain ⟨bound, shown⟩ := Option.isSome_iff_exists.mp (shown hash inside)
      rw [shownAt_fuel shown (by omega)]
      rfl
    obtain ⟨rows, last, matched⟩ := surveyed.matchPattern_returns orderly.settled orderly.coherent shown
      (fun step member => by
        have most := List.le_sum_of_mem (@List.mem_map_of_mem _ _ _ _
          (fun step => hopBudget store (hopBounds step.1.multiplier step.1.edgeType).2) member)
        omega) literal
    have lists := surveyed.matchPattern_lists orderly.settled orderly.coherent
      (surveyed.looks.alike orderly.readable) matched
    exact ⟨rows, last, (surveyed.matched _).trans (matchPatterns_of_single matched),
      lists.congr fun hashes => isMatch_of_plain plain⟩

end Universe

end Epochs.Ql.Engine

namespace Epochs.Ql.Engine

open Lib DiskStore Run

attribute [local instance] Blake3.linked insertionOrder

theorem inUniverse_of_branched {root second hash : Hash} {last : DiskStore}
    (branched : Branched root second last) (inside : InUniverse last sampleStart.2 hash)
    : hash = second ∨ hash = sampleStart.2 := by
  rcases inside with reaches | ⟨name, target, tip, reaches⟩
  · exact .inr (branched.eq_of_reaches_first reaches)
  · rw [branched.tips] at tip
    split at tip
    · rw [← Option.some.inj tip] at reaches
      exact branched.eq_of_reaches_second reaches
    · split at tip
      · rw [← Option.some.inj tip] at reaches
        exact .inr (branched.eq_of_reaches_first reaches)
      · cases tip

/-- `(child)-[:PARENT]->()` over two commits. -/
theorem execMatch_lists_branchOff
    : let first : NodePattern := { var := some "child", label := none, properties := [] }
      let step : EdgePattern × NodePattern :=
        ({ direction := .outgoing, edgeType := .parent, multiplier := none },
          { var := none, label := none, properties := [] })
      ∃ second last, branchOff sample = .ok second last
        ∧ ∃ budget, ∀ fuel, budget ≤ fuel → ∃ rows next,
          execMatch fuel ⟨[⟨pathElements first [step]⟩]⟩ sampleStart.2 last = .ok rows next
          ∧ Lists last (namesOf first [step])
            (IsAssignment (InUniverse last sampleStart.2) (Passes last) (LeadsTo last) first [step])
            rows := by
  intro first step
  obtain ⟨second, last, ran, branched⟩ := branchOff_branched
  refine ⟨second, last, ran, (execMatch_lists_iff branched.orderly (fun node member entry here => ?_)
    (fun node member number same => ?_)).mpr fun hash inside => ?_⟩
  · rcases List.mem_pair.mp member with rfl | rfl <;> cases here
  · rcases List.mem_pair.mp member with rfl | rfl
    · have chars := congrArg String.toList (Option.some.inj same)
      simp at chars
    · cases same
  · rcases inUniverse_of_branched branched inside with same | same
    · obtain ⟨commit, held, -, root⟩ := branched.held
      rw [← same] at held
      exact shown_of_empty branched.orderly.readable held root
    · obtain ⟨commit, held, root⟩ := branched.first
      rw [← same] at held
      exact shown_of_empty branched.orderly.readable held root

def absentRoot : Hash := ⟨List.replicate 32 1, by simp⟩

/-- A commit whose document cannot be listed makes every query fail. -/
theorem execMatch_lists_fails
    : let first : NodePattern := { var := some "commit", label := none, properties := [] }
      ∃ second last, branchWith absentRoot sample = .ok second last ∧ last.Orderly
        ∧ ¬ ∃ budget, ∀ fuel, budget ≤ fuel → ∃ rows next,
          execMatch fuel ⟨[⟨pathElements first []⟩]⟩ sampleStart.2 last = .ok rows next
          ∧ Lists last (namesOf first [])
            (IsAssignment (InUniverse last sampleStart.2) (Passes last) (LeadsTo last) first []) rows := by
  intro first
  obtain ⟨second, last, ran⟩ := Run.exists_eq_ok
    (by decide +kernel : (Run.valueOf (branchWith absentRoot sample)).isSome = true)
  have apart : Run.valueOf (branchWith absentRoot sample) ≠ some sampleStart.2 := by decide +kernel
  have apart' : Run.valueOf (branchWith absentRoot sample) ≠ some absentRoot := by decide +kernel
  have roomy : Traced.Roomy (Run.stateOf (branchWith absentRoot sample)).cas.handed := by
    decide +kernel
  have unmixed : Traced.Unmixed (Run.stateOf (branchWith absentRoot sample)).cas.handed := by
    decide +kernel
  rw [ran] at apart apart' roomy unmixed
  have branched := branched_of_branchWith ran (fun same => apart (congrArg some same)) roomy unmixed
  refine ⟨second, last, ran, branched.orderly, fun ⟨budget, returns⟩ => ?_⟩
  obtain ⟨rows, next, matched, -⟩ := returns budget le_rfl
  have listed : InUniverse last sampleStart.2 second :=
    .inr ⟨"topic", second, by rw [branched.tips, if_pos rfl], .refl⟩
  obtain ⟨bound, shown⟩ := shown_of_execMatch branched.orderly matched listed
  obtain ⟨commit, held, -, root⟩ := branched.held
  refine not_shown_of_absent branched.orderly.readable held ?_ ?_ bound shown
  · rw [root]
    decide +kernel
  · rw [root]
    exact branched.nothing absentRoot (fun same => apart' (congrArg some same.symm))
      (by decide +kernel)

end Epochs.Ql.Engine
