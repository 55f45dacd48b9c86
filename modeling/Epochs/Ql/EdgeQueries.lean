import Epochs.Ql.PathMatches

/-! Queries along one edge. `ANCESTOR` and `PARENT*` stop after 64 steps, so they find all
ancestors of a commit exactly when its history is no deeper. Children are recorded only for what the
listed branches reach, so `CHILD` is the inverse of `PARENT` exactly when the context adds no
commit with parents to that.
-/

namespace Epochs.Ql.Engine

open Lib DiskStore

variable [Blake3] [HashSeed] {store last : DiskStore} {fuel : Nat} {context start : Hash}
  {first second : String} {edge : EdgePattern} {rows : List Bindings}

variable {now : DiskStore} {commits : List Hash} {children : AssocMap Hash (List Hash)}

/-- A pattern of one edge is matched in two rounds. -/
theorem matchPattern_edge (ran : matchPattern fuel (edgePattern first second edge) commits children now
      = .ok rows last)
    : ∃ starts middle,
        bindFirst fuel (namedNode first) (HashSeed.order commits) [] now = .ok starts middle
        ∧ extendRows fuel edge (namedNode second) first second children starts [] middle
          = .ok rows last := by
  obtain ⟨starts, middle, bound, stepped⟩ := Run.bind_eq_ok.mp
    (show (bindFirst fuel (namedNode first) (HashSeed.order commits) [] >>= fun rows =>
      matchSteps fuel (edgePattern first second edge).elements children 3 1 rows) now = _ from ran)
  obtain ⟨ends, third, extended, done⟩ := Run.bind_eq_ok.mp
    (show (extendRows fuel edge (namedNode second) first second children starts [] >>= fun rows =>
      matchSteps fuel (edgePattern first second edge).elements children 2 3 rows) middle = _
      from stepped)
  cases done
  exact ⟨starts, middle, bound, extended⟩

omit [HashSeed] in
theorem passes_of_shown {var : String} {hash : Hash} (shown : (shownAt fuel store hash).isSome)
    : Passes store (namedNode var) hash := by
  obtain ⟨bound, shown⟩ := Option.isSome_iff_exists.mp shown
  exact ⟨bound, ⟨fuel, shown⟩, rfl⟩

/-- The pairs matched by one edge: each commit and what the edge leads to from it. -/
theorem matched_edge (alike : Alike store now) (once : commits.Nodup) (distinct : first ≠ second)
    (ran : matchPattern fuel (edgePattern first second edge) commits children now = .ok rows last)
    : (∀ a ∈ commits, ∃ found state, expandEdge fuel edge a children store = .ok found state)
      ∧ ∀ a b, Matched rows first second a b
        ↔ a ∈ commits ∧ ∃ found state, expandEdge fuel edge a children store = .ok found state
          ∧ b ∈ found := by
  have order := HashSeed.perm commits
  obtain ⟨starts, middle, bound, extended⟩ := matchPattern_edge ran
  let leads (edge : EdgePattern) (a b : Hash) : Prop :=
    ∃ found state, expandEdge fuel edge a children store = .ok found state ∧ b ∈ found
  obtain ⟨still, lists⟩ := @bindFirst_lists _ _ _ _ _ _ _ _ alike (order.nodup_iff.mpr once)
    (· ∈ commits) (fun _ => order.mem_iff) leads bound
  rw [bindFirst_eq] at bound
  obtain ⟨-, -, shown⟩ := bindRows_eq_ok alike bound
  obtain ⟨-, -, expands⟩ := extendRows_eq_ok still extended
  have starting {a : Hash} (here : a ∈ commits)
      : IsMatch (· ∈ commits) (Passes store) leads (namedNode first) [] [a] :=
    isMatch_nil.mpr ⟨a, rfl, here, passes_of_shown (shown a (order.mem_iff.mpr here))⟩
  have expandsAt {a : Hash} (here : a ∈ commits) : ∃ found state,
      expandEdge fuel edge a children store = .ok found state
      ∧ ∀ hash ∈ found, (shownAt fuel store hash).isSome := by
    obtain ⟨row, member, reads⟩ := (lists.mem_iff [a]).mpr (starting here)
    obtain ⟨src, found, state, held, expanded, shownAll⟩ := expands row member
    have same : hashAt row first = some a := (List.cons.inj reads).1
    rw [hashAt, held, Option.map_some] at same
    rw [Option.some.inj same] at expanded
    exact ⟨found, state, expanded, shownAll⟩
  have leading : Leading fuel store (· ∈ commits) leads children [] := ⟨by simp, by simp⟩
  obtain ⟨-, longer⟩ := leading.extendRows still (fun a here found state expanded b => by
    refine ⟨fun member => ⟨found, state, expanded, member⟩, ?_⟩
    rintro ⟨found', state', expanded', member⟩
    cases expanded.symm.trans expanded'
    exact member) lists rfl extended
  refine ⟨fun a here => ?_, fun a b => ?_⟩
  · obtain ⟨found, state, expanded, -⟩ := expandsAt here
    exact ⟨found, state, expanded⟩
  have reads (row : Bindings) : [first, second].map (hashAt row) = [a, b].map some
      ↔ hashAt row first = some a ∧ hashAt row second = some b := by simp
  unfold Matched
  simp only [← reads]
  refine ((longer.mem_iff [a, b]).trans (isMatch_concat _)).trans ?_
  constructor
  · rintro ⟨front, hash, same, valid, ⟨source, at_, found, state, expanded, led⟩, -⟩
    obtain ⟨only, rfl, here, -⟩ := isMatch_nil.mp valid
    cases same
    cases at_
    exact ⟨here, found, state, expanded, led⟩
  · rintro ⟨here, found, state, expanded, led⟩
    obtain ⟨found', state', expanded', shownAll⟩ := expandsAt here
    cases expanded.symm.trans expanded'
    refine ⟨[a], b, rfl, starting here, ⟨a, rfl, found, state, expanded, led⟩,
      passes_of_shown (shownAll b led), fun other shared => ?_⟩
    exact absurd (Prod.mk.inj (List.mem_singleton.mp shared)).1.symm distinct

/-- The pairs that a query of one edge finds. -/
theorem matched_of_execMatch (readable : store.Readable) (distinct : first ≠ second)
    (ran : execMatch fuel ⟨[edgePattern first second edge]⟩ context store = .ok rows last)
    : ∃ reachable children middle now,
        Looks store middle ∧ reachableCommits fuel middle = .ok reachable now
        ∧ (∃ later, Looks now later ∧ childrenMap fuel now = .ok children later)
        ∧ store.view.Whole context
        ∧ (∀ a, store.view.Reaches context a ∨ a ∈ reachable
          → ∃ found state, expandEdge fuel edge a children store = .ok found state)
        ∧ ∀ a b, Matched rows first second a b
          ↔ (store.view.Reaches context a ∨ a ∈ reachable)
            ∧ ∃ found state, expandEdge fuel edge a children store = .ok found state ∧ b ∈ found := by
  obtain ⟨ancestors, reachable, children, one, two, three, collected, looksOne, walked, looksTwo,
    mapped, looksThree, matched⟩ := execMatch_eq_ok ran
  obtain ⟨whole, members⟩ := collectAncestors_eq_ok readable collected
  have looks := looks_frame.trans (looks_frame.trans looksOne looksTwo) looksThree
  have among (a : Hash) : a ∈ unionHashes ancestors (HashSeed.order reachable)
      ↔ store.view.Reaches context a ∨ a ∈ reachable := by
    rw [mem_unionHashes, (HashSeed.perm reachable).mem_iff, members]
  obtain ⟨expands, pairs⟩ := matched_edge (looks.alike readable)
    (nodup_unionHashes (nodup_collectAncestors readable collected) _) distinct
    (matchPatterns_single matched)
  simp only [among] at expands pairs
  exact ⟨reachable, children, one, two, looksOne, walked, ⟨three, looksThree, mapped⟩, whole,
    expands, pairs⟩

-- Transitive edges

def Transitive (edge : EdgePattern) : Prop :=
  edge.edgeType = .ancestor ∧ edge.multiplier = none
  ∨ edge.edgeType = .parent ∧ edge.multiplier = some .any

/-- Every ancestor of a commit is at most a number of parents away. -/
def Shallow (view : View) (limit : Nat) (start : Hash) : Prop :=
  ∀ hash, view.Reaches start hash → ∃ hops, hops ≤ limit ∧ Worklist.Steps view.parents hops start hash

omit [Blake3] [HashSeed] in
theorem Transitive.toward (transitive : Transitive edge)
    : towardRoot edge.edgeType = true ∧ hopBounds edge.multiplier edge.edgeType = (1, 64) := by
  rcases transitive with ⟨isAncestor, bare⟩ | ⟨isParent, any⟩
  · rw [isAncestor, bare]
    exact ⟨rfl, rfl⟩
  · rw [isParent, any]
    exact ⟨rfl, rfl⟩

/-- A transitive edge leads to the other commits that are at most 64 parents away. -/
theorem mem_transitive (readable : store.Readable) (transitive : Transitive edge)
    (whole : store.view.Whole start) {children : AssocMap Hash (List Hash)} {found : List Hash}
    (ran : expandEdge fuel edge start children store = .ok found last) {hash : Hash}
    : hash ∈ found
      ↔ hash ≠ start ∧ ∃ hops, hops ≤ 64 ∧ Worklist.Steps store.view.parents hops start hash := by
  obtain ⟨toward, bounds⟩ := transitive.toward
  have steps : stepsOf store.view children (towardRoot edge.edgeType) = store.view.parents := by
    funext hash
    rw [stepsOf, if_pos toward]
  rw [mem_expandEdge readable (fun _ => whole) ran, bounds, Leads, steps]
  refine and_congr_right fun other => exists_congr fun hops => ?_
  constructor
  · exact And.right
  · rintro ⟨most, led⟩
    refine ⟨?_, most, led⟩
    cases hops with
    | zero => exact absurd led.symm other
    | succ hops => omega

omit [HashSeed] in
/-- What a transitive edge finds is all of the ancestors exactly when these are near enough. -/
theorem transitive_iff_shallow {matched : Hash → Prop} {ancestors : List Hash}
    (found : ∀ hash, matched hash
      ↔ hash ≠ start ∧ ∃ hops, hops ≤ 64 ∧ Worklist.Steps store.view.parents hops start hash)
    (collected : ∀ hash, hash ∈ ancestors ↔ store.view.Reaches start hash)
    : (∀ hash, matched hash ↔ hash ∈ ancestors ∧ hash ≠ start) ↔ Shallow store.view 64 start := by
  constructor
  · intro all hash reaches
    by_cases same : hash = start
    · exact ⟨0, Nat.zero_le _, same.symm⟩
    · exact ((found hash).mp ((all hash).mpr ⟨(collected hash).mpr reaches, same⟩)).2
  · intro shallow hash
    rw [found, collected]
    constructor
    · rintro ⟨other, hops, -, steps⟩
      exact ⟨Worklist.reaches_iff_steps.mpr ⟨hops, steps⟩, other⟩
    · exact fun ⟨reaches, other⟩ => ⟨other, shallow hash reaches⟩

/-- From a commit with a whole history a transitive edge leads to its other ancestors exactly when
none of them is more than 64 parents away.
-/
theorem transitive_edge_iff (readable : store.Readable) (transitive : Transitive edge)
    (whole : store.view.Whole start) (enough : store.budget ≤ fuel)
    (enoughHops : hopBudget store 64 ≤ fuel)
    : ∃ ancestors next, collectAncestors fuel start store = .ok ancestors next
        ∧ (∀ children, ∃ found last, expandEdge fuel edge start children store = .ok found last
          ∧ ((∀ hash, hash ∈ found ↔ hash ∈ ancestors ∧ hash ≠ start)
            ↔ Shallow store.view 64 start))
        ∧ ∀ context first second rows last, first ≠ second
          → execMatch fuel ⟨[edgePattern first second edge]⟩ context store = .ok rows last
          → store.view.Reaches context start ∨ (∃ hash, Matched rows first second start hash)
          → ((∀ hash, Matched rows first second start hash ↔ hash ∈ ancestors ∧ hash ≠ start)
            ↔ Shallow store.view 64 start) := by
  obtain ⟨toward, bounds⟩ := transitive.toward
  obtain ⟨ancestors, next, collected, -, -, members⟩ := collectAncestors_spec readable whole enough
  have expands (children : AssocMap Hash (List Hash)) := @expandEdge_returns _ store _ edge start
    children fuel readable toward whole (by rw [bounds]; exact enoughHops)
  refine ⟨ancestors, next, collected, fun children => ?_, ?_⟩
  · obtain ⟨found, last, expanded⟩ := expands children
    exact ⟨found, last, expanded, transitive_iff_shallow
      (fun hash => mem_transitive readable transitive whole expanded) members⟩
  · intro context first second rows last distinct ran starts
    obtain ⟨reachable, children, middle, now, -, -, -, -, -, pairs⟩ :=
      matched_of_execMatch readable distinct ran
    have among : store.view.Reaches context start ∨ start ∈ reachable := by
      rcases starts with reaches | ⟨hash, here⟩
      · exact .inl reaches
      · exact ((pairs start hash).mp here).1
    obtain ⟨found, state, expanded⟩ := expands children
    refine transitive_iff_shallow (fun hash => ?_) members
    rw [pairs, ← mem_transitive readable transitive whole expanded]
    constructor
    · rintro ⟨-, found', state', expanded', member⟩
      cases expanded.symm.trans expanded'
      exact member
    · exact fun member => ⟨among, found, state, expanded, member⟩

-- Children and parents

def oneHop (edgeType : EdgeType) : EdgePattern :=
  { direction := .outgoing, edgeType, multiplier := none }

/-- An edge of one hop leads to the other commits that are one step away. -/
theorem mem_oneHop (readable : store.Readable) {edgeType : EdgeType}
    (single : edgeType = .parent ∨ edgeType = .child) (whole : store.view.Whole start)
    {children : AssocMap Hash (List Hash)} {found : List Hash}
    (ran : expandEdge fuel (oneHop edgeType) start children store = .ok found last) {hash : Hash}
    : hash ∈ found
      ↔ hash ≠ start ∧ hash ∈ stepsOf store.view children (towardRoot edgeType) start := by
  have bounds : hopBounds (oneHop edgeType).multiplier (oneHop edgeType).edgeType = (1, 1) := by
    rcases single with rfl | rfl <;> rfl
  rw [mem_expandEdge readable (fun _ => whole) ran, bounds]
  refine and_congr_right fun _ => ?_
  constructor
  · rintro ⟨hops, least, most, led⟩
    obtain rfl : hops = 1 := Nat.le_antisymm most least
    obtain ⟨_, rfl, edge⟩ := led
    exact edge
  · exact fun edge => ⟨1, le_rfl, le_rfl, start, rfl, edge⟩

/-- What a query of one hop finds in a settled store. -/
theorem matched_oneHop (settled : store.Settled) (coherent : store.Coherent)
    (distinct : first ≠ second) {edgeType : EdgeType} (single : edgeType = .parent ∨ edgeType = .child)
    (ran : execMatch fuel ⟨[edgePattern first second (oneHop edgeType)]⟩ context store = .ok rows last)
    : ∃ children : AssocMap Hash (List Hash),
        (∀ hash child, child ∈ (AssocMap.lookup hash children).getD []
          ↔ Listed store child ∧ hash ∈ store.view.parents child)
        ∧ ∀ a b, Matched rows first second a b
          ↔ (store.view.Reaches context a ∨ Listed store a) ∧ b ≠ a
            ∧ b ∈ stepsOf store.view children (towardRoot edgeType) a := by
  have readable : store.Readable := ⟨settled.sane, coherent⟩
  obtain ⟨reachable, children, middle, now, looks, walked, ⟨later, -, mapped⟩, whole, expands, pairs⟩ :=
    matched_of_execMatch readable distinct ran
  have looksNow : Looks store now := by
    have further := (reachableCommits_within looks_frame loadCommit_looks fuel).of_ok walked
    exact looks_frame.trans looks further
  obtain ⟨commits, reached⟩ := reachableCommits_eq_ok (settled.looks looks)
    (looks.coherent settled.sane coherent) walked
  have among (hash : Hash) : hash ∈ reachable ↔ Listed store hash :=
    (reached hash).trans (Looks.listed settled coherent looks hash)
  have wholeAt {hash : Hash} (start : store.view.Reaches context hash ∨ hash ∈ reachable)
      : store.view.Whole hash := by
    rcases start with reaches | member
    · exact whole.of_reaches reaches
    · intro other reaches
      rw [← looks.view readable]
      exact commits other ((among other).mpr (((among hash).mp member).of_reaches reaches))
  refine ⟨children, fun hash child => ?_, fun a b => ?_⟩
  · rw [childrenMap_eq_ok (settled.looks looksNow) (looksNow.coherent settled.sane coherent) mapped]
    refine and_congr (Looks.listed settled coherent looksNow child) ?_
    rw [looksNow.view readable]
  · rw [pairs, ← among]
    refine and_congr_right fun start => ?_
    obtain ⟨found, state, expanded⟩ := expands a start
    rw [← mem_oneHop readable single (wholeAt start) expanded]
    constructor
    · rintro ⟨found', state', expanded', member⟩
      cases expanded.symm.trans expanded'
      exact member
    · exact fun member => ⟨found, state, expanded, member⟩

/-- A child edge finds the inverse of what a parent edge finds exactly when the context is reached
from a listed branch or has no other parent.
-/
theorem child_inverse_iff (settled : store.Settled) (coherent : store.Coherent)
    (distinct : first ≠ second) {inverse : List Bindings} {end_ : DiskStore}
    (children : execMatch fuel ⟨[edgePattern first second (oneHop .child)]⟩ context store
      = .ok rows last)
    (parents : execMatch fuel ⟨[edgePattern second first (oneHop .parent)]⟩ context store
      = .ok inverse end_)
    : (∀ a b, Matched rows first second a b ↔ Matched inverse second first b a)
      ↔ Listed store context ∨ ∀ parent ∈ store.view.parents context, parent = context := by
  obtain ⟨map, recorded, down⟩ := matched_oneHop settled coherent distinct (.inr rfl) children
  obtain ⟨_, -, up⟩ := matched_oneHop settled coherent distinct.symm (.inl rfl) parents
  have downward (a b : Hash) : Matched rows first second a b
      ↔ (store.view.Reaches context a ∨ Listed store a) ∧ b ≠ a ∧ Listed store b
        ∧ a ∈ store.view.parents b := by
    rw [down, stepsOf, if_neg (by decide), recorded]
  have upward (a b : Hash) : Matched inverse second first b a
      ↔ (store.view.Reaches context b ∨ Listed store b) ∧ b ≠ a ∧ a ∈ store.view.parents b := by
    rw [up, stepsOf, if_pos (by rfl)]
    exact and_congr_right fun _ => and_congr_left fun _ => ne_comm
  simp only [downward, upward]
  constructor
  · intro same
    by_cases listed : Listed store context
    · exact .inl listed
    · refine .inr fun parent edge => ?_
      by_contra other
      exact listed ((same parent context).mpr ⟨.inl .refl, Ne.symm other, edge⟩).2.2.1
  · intro covered a b
    constructor
    · rintro ⟨-, other, listed, edge⟩
      exact ⟨.inr listed, other, edge⟩
    · rintro ⟨start, other, edge⟩
      have listed : Listed store b := by
        rcases start with reaches | listed
        · rcases covered with above | alone
          · exact above.of_reaches reaches
          · -- without other parents the context reaches nothing but itself
            have same : b = context := by
              clear edge other
              induction reaches with
              | refl => rfl
              | tail _ edge ih => exact alone _ (ih ▸ edge)
            exact absurd (alone a (same ▸ edge)) (same ▸ Ne.symm other)
        · exact listed
      exact ⟨.inr (listed.of_reaches (.single edge)), other, listed, edge⟩

end Epochs.Ql.Engine

namespace Epochs.Ql.Engine

open Lib DiskStore

attribute [local instance] Blake3.linked insertionOrder

/-- From a commit over the first one `ANCESTOR` leads to the first one, its only other ancestor. -/
theorem transitive_edge_iff_branchOff
    : ∃ second last, branchOff sample = .ok second last ∧ ∃ fuel ancestors next found end_,
        collectAncestors fuel second last = .ok ancestors next
        ∧ expandEdge fuel (oneHop .ancestor) second [] last = .ok found end_
        ∧ sampleStart.2 ∈ found ∧ ∀ hash, hash ∈ found ↔ hash ∈ ancestors ∧ hash ≠ second := by
  obtain ⟨second, last, ran, branched⟩ := branchOff_branched
  obtain ⟨commit, held, -⟩ := branched.held
  have readable := branched.orderly.readable
  have edge : sampleStart.2 ∈ last.view.parents second := by
    rw [branched.edge]
    exact List.mem_singleton_self _
  have shallow : Shallow last.view 64 second := by
    intro hash reaches
    rcases branched.eq_of_reaches_second reaches with same | same
    · exact ⟨0, by omega, same.symm⟩
    · rw [same]
      exact ⟨1, by omega, second, rfl, edge⟩
  obtain ⟨ancestors, next, collected, expands, -⟩ := @transitive_edge_iff _ _ last _ second
    (oneHop .ancestor) readable (.inl ⟨rfl, rfl⟩) (branched.orderly.closed.whole held)
    (le_max_left last.budget (hopBudget last 64)) (le_max_right _ _)
  obtain ⟨found, end_, expanded, all⟩ := expands []
  have all := all.mpr shallow
  refine ⟨second, last, ran, _, ancestors, next, found, end_, collected, expanded, ?_, all⟩
  rw [all, (collectAncestors_eq_ok readable collected).2]
  exact ⟨.single edge, branched.apart.symm⟩

def commitChain : Nat → Hash → Run EpochsError DiskStore Hash
  | 0, tip => pure tip
  | count + 1, tip => do
    let next ← commitWithRoot [tip] Hash.zero ""
    commitChain count next

/-- With 65 commits after it the first commit is an ancestor that `ANCESTOR` does not find. -/
theorem transitive_edge_short
    : Run.valueOf ((do
        let tip ← lift (commitChain 65 sampleStart.2)
        let ancestors ← lift (collectAncestors 80 tip)
        let found ← expandEdge 80 (oneHop .ancestor) tip []
        pure (decide (sampleStart.2 ∈ ancestors), decide (sampleStart.2 = tip),
          decide (sampleStart.2 ∈ found)) : Exec (Bool × Bool × Bool)) sample)
      = some (true, false, false) := by
  decide +kernel

/-- With a commit at a branch as the context, the first commit and it are the one pair of both. -/
theorem child_inverse_iff_branchOff
    : ∃ second last, branchOff sample = .ok second last ∧ ∃ children parents next end_,
        execMatch 20 ⟨[edgePattern "a" "b" (oneHop .child)]⟩ second last = .ok children next
        ∧ execMatch 20 ⟨[edgePattern "b" "a" (oneHop .parent)]⟩ second last = .ok parents end_
        ∧ children.length = 1
        ∧ ∀ a b, Matched children "a" "b" a b ↔ Matched parents "b" "a" b a := by
  obtain ⟨second, last, ran, branched⟩ := branchOff_branched
  have matched : (Run.valueOf (execMatch 20 ⟨[edgePattern "a" "b" (oneHop .child)]⟩
        ((Run.valueOf (branchOff sample)).getD Hash.zero) (Run.stateOf (branchOff sample)))).map
          List.length = some 1
      ∧ (Run.valueOf (execMatch 20 ⟨[edgePattern "b" "a" (oneHop .parent)]⟩
        ((Run.valueOf (branchOff sample)).getD Hash.zero)
          (Run.stateOf (branchOff sample)))).isSome = true := by
    decide +kernel
  rw [ran] at matched
  obtain ⟨children, foundChildren, one⟩ := Option.map_eq_some_iff.mp matched.1
  obtain ⟨parents, foundParents⟩ := Option.isSome_iff_exists.mp matched.2
  have ranChildren := Run.eq_ok_of_valueOf foundChildren
  have ranParents := Run.eq_ok_of_valueOf foundParents
  exact ⟨second, last, ran, children, parents, _, _, ranChildren, ranParents, one,
    (child_inverse_iff branched.orderly.settled branched.orderly.coherent (by decide) ranChildren
      ranParents).mpr (.inl ⟨"topic", second, by rw [branched.tips, if_pos rfl], .refl⟩)⟩

/-- A commit after the first one that no branch was moved to. -/
def asideCommit : EStateM.Result (Fault EpochsError) DiskStore Hash :=
  commitWithRoot [sampleStart.2] Hash.zero "aside" sample

/-- With that commit as the context the parent edge finds a pair that the child edge does not. -/
theorem child_not_inverse
    : let context := (Run.valueOf asideCommit).getD Hash.zero
      let pairs (rows : List Bindings) := rows.map fun row => (hashAt row "a", hashAt row "b")
      (Run.valueOf (execMatch 20 ⟨[edgePattern "a" "b" (oneHop .child)]⟩ context
        (Run.stateOf asideCommit))).map pairs = some []
      ∧ (Run.valueOf (execMatch 20 ⟨[edgePattern "b" "a" (oneHop .parent)]⟩ context
        (Run.stateOf asideCommit))).map pairs = some [(some sampleStart.2, some context)] := by
  decide +kernel

end Epochs.Ql.Engine
