import Epochs.Lib.Worklist

/-! Searching a graph breadth first. The generations of a node are the nodes one step away, two
steps away and so on, each in the order in which the neighbours are listed; a search returns the
first node of the earliest generation that has one it looks for.
-/

namespace Epochs.Lib.Worklist

variable {α : Type} (next : α → List α) (target : α → Prop)

-- Generations

/-- The nodes this many steps away, as often as they are reached in that many steps. -/
def generation (nodes : List α) : Nat → List α
  | 0 => nodes
  | count + 1 => (generation nodes count).flatMap next

theorem generation_flatMap (nodes : List α) (count : Nat)
    : generation next (nodes.flatMap next) count = generation next nodes (count + 1) := by
  induction count with
  | zero => rfl
  | succ count ih => rw [generation, ih, ← generation]

variable {nodes : List α} {node : α}

variable {next} in
/-- A node of a generation can be reached. -/
theorem reaches_of_mem_generation {count : Nat}
    (member : node ∈ generation next nodes count)
    : ∃ start ∈ nodes, Reaches next start node := by
  induction count generalizing node with
  | zero => exact ⟨node, member, .refl⟩
  | succ count ih =>
    obtain ⟨middle, earlier, edge⟩ := List.mem_flatMap.mp member
    obtain ⟨start, here, reaches⟩ := ih earlier
    exact ⟨start, here, reaches.tail edge⟩

def First (nodes : List α) (found : α) : Prop :=
  ∃ front back, nodes = front ++ found :: back ∧ target found ∧ ∀ node ∈ front, ¬ target node

/-- The first node that is looked for of the earliest generation that has one. -/
def Nearest (nodes : List α) (found : α) : Prop :=
  ∃ count,
    First target (generation next nodes count) found
    ∧ ∀ earlier < count, ∀ node ∈ generation next nodes earlier, ¬ target node

variable {next target}

variable {rest : List α}

theorem first_cons (is : target node)
    : First target (node :: rest) node :=
  ⟨[], rest, rfl, is, by simp⟩

theorem First.cons {node found : α} {rest : List α} (not : ¬ target node)
    (first : First target rest found)
    : First target (node :: rest) found := by
  obtain ⟨front, back, rfl, is, none⟩ := first
  exact ⟨node :: front, back, rfl, is, by simpa [not] using none⟩

variable {found : α}

theorem First.unique {other : α} (first : First target nodes found)
    (also : First target nodes other)
    : found = other := by
  obtain ⟨front, back, rfl, is, none⟩ := first
  obtain ⟨front', back', same, is', none'⟩ := also
  rcases List.append_eq_append_iff.mp same with ⟨middle, rfl, split⟩ | ⟨middle, rfl, split⟩
  · cases middle with
    | nil => exact (List.cons.inj split).1
    | cons head middle =>
      cases split
      exact absurd is (none' found (by simp))
  · cases middle with
    | nil => exact (List.cons.inj split).1.symm
    | cons head middle =>
      cases split
      exact absurd is' (none other (by simp))

theorem First.mem (first : First target nodes found)
    : found ∈ nodes ∧ target found := by
  obtain ⟨front, back, rfl, is, -⟩ := first
  exact ⟨by simp, is⟩

theorem Nearest.unique {other : α} (nearest : Nearest next target nodes found)
    (also : Nearest next target nodes other)
    : found = other := by
  obtain ⟨count, first, none⟩ := nearest
  obtain ⟨count', first', none'⟩ := also
  rcases Nat.lt_trichotomy count count' with less | rfl | more
  · exact absurd first.mem.2 (none' count less found first.mem.1)
  · exact first.unique first'
  · exact absurd first'.mem.2 (none count' more other first'.mem.1)

/-- The nearest node is the nearest of fewer, if it is one of them. -/
theorem Nearest.of_fewer {wanted : α → Prop} (nearest : Nearest next target nodes found)
    (fewer : ∀ node, wanted node → target node) (is : wanted found)
    : Nearest next wanted nodes found := by
  obtain ⟨count, ⟨front, back, split, -, none⟩, earlier⟩ := nearest
  exact ⟨count, ⟨front, back, split, is, fun node member wanted => none node member (fewer node wanted)⟩,
    fun below less node member wanted => earlier below less node member (fewer node wanted)⟩

theorem nearest_of_first (first : First target nodes found)
    : Nearest next target nodes found :=
  ⟨0, first, fun _ below => absurd below (Nat.not_lt_zero _)⟩

theorem nearest_of_flatMap (none : ∀ node ∈ nodes, ¬ target node)
    (nearest : Nearest next target (nodes.flatMap next) found)
    : Nearest next target nodes found := by
  obtain ⟨count, first, earlier⟩ := nearest
  refine ⟨count + 1, generation_flatMap next nodes count ▸ first, fun below less node member => ?_⟩
  cases below with
  | zero => exact none node member
  | succ below =>
    rw [← generation_flatMap] at member
    exact earlier below (by omega) node member

-- Searching without marks

variable (next target) in
/-- A queue from which nodes are taken, each replaced by its neighbours at the end, gets to a
node that is looked for.
-/
inductive Finds : List α → α → Prop
  | here {node : α} {rest : List α} (is : target node) : Finds (node :: rest) node
  | later {node found : α} {rest : List α} (not : ¬ target node)
    (further : Finds (rest ++ next node) found)
    : Finds (node :: rest) found

/-- Nodes that are not looked for are replaced by their neighbours. -/
theorem Finds.skip {front : List α} (none : ∀ node ∈ front, ¬ target node)
    (finds : Finds next target (rest ++ front.flatMap next) found)
    : Finds next target (front ++ rest) found := by
  induction front generalizing rest with
  | nil => simpa using finds
  | cons node front ih =>
    refine .later (none node List.mem_cons_self) ?_
    rw [show front.append rest ++ next node = front ++ (rest ++ next node) from
      List.append_assoc _ _ _]
    refine ih (fun other member => none other (List.mem_cons_of_mem _ member)) ?_
    simpa [List.flatMap_cons] using finds

/-- A queue that still holds a part of one generation, and the neighbours of the other part. -/
theorem Finds.split {queue : List α} {found : α} (finds : Finds next target queue found)
    {done rest : List α} (parts : queue = rest ++ done.flatMap next)
    : First target rest found
      ∨ (∀ node ∈ rest, ¬ target node)
        ∧ Nearest next target ((done ++ rest).flatMap next) found := by
  induction finds generalizing done rest with
  | @here node tail is =>
    cases rest with
    | nil =>
      refine .inr ⟨by simp, ?_⟩
      rw [List.append_nil, ← show node :: tail = done.flatMap next from parts]
      exact nearest_of_first (first_cons is)
    | cons head rest =>
      cases parts
      exact .inl (first_cons is)
  | @later node found tail not further ih =>
    cases rest with
    | nil =>
      refine .inr ⟨by simp, ?_⟩
      rw [List.append_nil, ← show node :: tail = done.flatMap next from parts]
      rcases @ih [node] tail (by simp) with first | ⟨none, nearest⟩
      · exact nearest_of_first (first.cons not)
      · exact nearest_of_flatMap (by simpa [not] using none) nearest
    | cons head rest =>
      cases parts
      rcases @ih (done ++ [node]) rest (by simp) with first | ⟨none, nearest⟩
      · exact .inl (first.cons not)
      · exact .inr ⟨by simpa [not] using none, by simpa using nearest⟩

/-- Such a queue gets to the nearest node that is looked for. -/
theorem Finds.nearest {queue : List α} (finds : Finds next target queue found)
    : Nearest next target queue found := by
  rcases @Finds.split _ _ _ _ _ finds [] queue (by simp) with first | ⟨none, nearest⟩
  · exact nearest_of_first first
  · exact nearest_of_flatMap none nearest

-- Searching with marks

variable [DecidableEq α]

def unseen (visited : List α) : List α → List α
  | [] => []
  | node :: rest =>
    if node ∈ visited then unseen visited rest else node :: unseen (visited ++ [node]) rest

theorem enqueue_eq_unseen (queue visited nodes : List α)
    : enqueue queue visited nodes
      = (queue ++ unseen visited nodes, visited ++ unseen visited nodes) := by
  induction nodes generalizing queue visited with
  | nil => simp [enqueue, unseen]
  | cons node rest ih =>
    rw [enqueue, unseen]
    split
    · exact ih queue visited
    · rw [ih]
      simp

/-- Only which nodes are marked counts. -/
theorem unseen_congr {first second : List α} (same : ∀ node, node ∈ first ↔ node ∈ second)
    (nodes : List α)
    : unseen first nodes = unseen second nodes := by
  induction nodes generalizing first second with
  | nil => rfl
  | cons node rest ih =>
    have more (other : α) : other ∈ first ++ [node] ↔ other ∈ second ++ [node] := by
      rw [List.mem_append, List.mem_append, same]
    rw [unseen, unseen, ih same, ih more]
    simp only [same]

variable {visited : List α}

theorem unseen_of_subset (seen : ∀ node ∈ nodes, node ∈ visited)
    : unseen visited nodes = [] := by
  induction nodes with
  | nil => rfl
  | cons node rest ih =>
    rw [unseen, if_pos (seen node List.mem_cons_self)]
    exact ih fun other member => seen other (List.mem_cons_of_mem _ member)

theorem unseen_append (visited first second : List α)
    : unseen visited (first ++ second) = unseen visited first ++ unseen (visited ++ first) second := by
  induction first generalizing visited with
  | nil => simp [unseen]
  | cons node rest ih =>
    rw [List.cons_append, unseen, unseen]
    split
    · rename_i seen
      have same (other : α) : other ∈ visited ++ rest ↔ other ∈ visited ++ node :: rest := by
        simp only [List.mem_append, List.mem_cons]
        constructor
        · tauto
        · rintro (old | rfl | later)
          · exact .inl old
          · exact .inl seen
          · exact .inr later
      rw [ih, unseen_congr same]
    · rw [ih]
      simp

theorem nodup_unseen (visited nodes : List α) : (unseen visited nodes).Nodup := by
  obtain ⟨new, added, distinct, -, -⟩ := enqueue_spec [] visited nodes
  rw [enqueue_eq_unseen, Prod.mk.injEq] at added
  exact List.append_cancel_left added.2 ▸ distinct

theorem mem_unseen
    : node ∈ unseen visited nodes ↔ node ∈ nodes ∧ node ∉ visited := by
  obtain ⟨new, added, -, -, members⟩ := enqueue_spec [] visited nodes
  rw [enqueue_eq_unseen, Prod.mk.injEq] at added
  rw [List.append_cancel_left added.2]
  exact members node

theorem mem_append_unseen
    : node ∈ visited ++ unseen visited nodes ↔ node ∈ visited ∨ node ∈ nodes := by
  rw [List.mem_append, mem_unseen]
  tauto

/-- The first node that is not marked stands after marked nodes. -/
theorem unseen_eq_cons
    (first : unseen visited nodes = node :: rest)
    : ∃ front back,
        nodes = front ++ node :: back
        ∧ (∀ other ∈ front, other ∈ visited)
        ∧ node ∉ visited
        ∧ rest = unseen (visited ++ [node]) back := by
  induction nodes with
  | nil => cases first
  | cons head tail ih =>
    rw [unseen] at first
    split at first
    · rename_i seen
      obtain ⟨front, back, rfl, marked, fresh, rfl⟩ := ih first
      refine ⟨head :: front, back, rfl, ?_, fresh, rfl⟩
      simpa [seen] using marked
    · rename_i fresh
      cases first
      exact ⟨[], tail, rfl, by simp, fresh, rfl⟩

variable [DecidablePred target]

variable (next target) in
/-- Search breadth first for a node, queueing each node at most once. -/
def search : (fuel : Nat) → (queue visited : List α) → Option (Option α)
  | _, [], _ => some none
  | 0, _ :: _, _ => none
  | fuel + 1, current :: queue, visited =>
    if target current then
      some (some current)
    else
      search fuel (enqueue queue visited (next current)).1
        (enqueue queue visited (next current)).2

variable {fuel : Nat} {queue visited : List α}

/-- Marks only spare a search nodes it has been at. It gets where the search without them gets:
what is queued are the nodes that one still has to look at, apart from those that are done.
-/
theorem finds_of_search {found : α} (ran : search next target fuel queue visited = some (some found))
    {done pending : List α} (queued : queue = unseen done pending)
    (marks : ∀ node, node ∈ visited ↔ node ∈ done ∨ node ∈ pending)
    (passed : ∀ node ∈ done, ¬ target node ∧ ∀ neighbour ∈ next node, neighbour ∈ visited)
    : Finds next target pending found := by
  fun_induction search next target fuel queue visited generalizing done pending with
  | case1 => cases ran
  | case2 => cases ran
  | case3 fuel current queue visited is =>
    cases ran
    obtain ⟨front, back, rfl, old, -, -⟩ := unseen_eq_cons queued.symm
    exact .skip (fun node member => (passed node (old node member)).1) (.here is)
  | case4 fuel current queue visited not ih =>
    obtain ⟨front, back, rfl, old, fresh, rfl⟩ := unseen_eq_cons queued.symm
    refine .skip (fun node member => (passed node (old node member)).1) ?_
    rw [List.cons_append]
    have whole (node : α)
        : node ∈ visited ↔ node ∈ done ++ [current] ∨ node ∈ back := by
      rw [marks]
      simp only [List.mem_append, List.mem_cons, List.not_mem_nil, or_false]
      constructor
      · rintro (before | before | here | after)
        · exact .inl (.inl before)
        · exact .inl (.inl (old node before))
        · exact .inl (.inr here)
        · exact .inr after
      · tauto
    have known : ∀ node ∈ front.flatMap next, node ∈ done ++ [current] ++ back := by
      intro node member
      obtain ⟨middle, inFront, edge⟩ := List.mem_flatMap.mp member
      exact List.mem_append.mpr ((whole node).mp
        ((passed middle (old middle inFront)).2 node edge))
    have marked (node : α)
        : node ∈ visited ↔ node ∈ done ++ [current] ++ (back ++ front.flatMap next) := by
      rw [whole, ← List.append_assoc, List.mem_append (s := done ++ [current] ++ back),
        ← List.mem_append]
      exact ⟨.inl, fun either => either.elim id (known node)⟩
    rw [enqueue_eq_unseen] at ih ran
    refine .later not (@ih ran (done ++ [current]) _ ?_ ?_ ?_)
    · rw [unseen_append, unseen_append, unseen_of_subset known, List.append_nil,
        unseen_congr marked]
    · intro node
      rw [mem_append_unseen, marked, List.mem_append, List.mem_append (s := back ++ _),
        or_assoc]
    · intro node member
      have further {neighbour : α} (edge : neighbour ∈ visited ∨ neighbour ∈ next current)
          : neighbour ∈ visited ++ unseen visited (next current) :=
        mem_append_unseen.mpr edge
      rcases List.mem_append.mp member with before | here
      · exact ⟨(passed node before).1,
          fun neighbour edge => further (.inl ((passed node before).2 neighbour edge))⟩
      · cases List.mem_singleton.mp here
        exact ⟨not, fun neighbour edge => further (.inr edge)⟩

/-- A search from one node finds the nearest one that is looked for. -/
theorem nearest_of_search {start : α}
    (ran : search next target fuel [start] [start] = some (some found))
    : Nearest next target [start] found :=
  (@finds_of_search _ _ _ _ _ _ _ _ _ ran [] [start] rfl (by simp) (by simp)).nearest

/-- A search that finds nothing has looked at everything that can be reached. -/
theorem not_target_of_search (ran : search next target fuel queue visited = some none)
    (sweeping : Sweeping next queue visited)
    (passed : ∀ node ∈ visited, node ∉ queue → ¬ target node) {start : α}
    (member : start ∈ visited) (reaches : Reaches next start node)
    : ¬ target node := by
  have ended {visited : List α} (sweeping : Sweeping next [] visited)
      (passed : ∀ node ∈ visited, node ∉ [] → ¬ target node) (member : start ∈ visited)
      : ¬ target node := by
    have known : node ∈ visited := by
      induction reaches with
      | refl => exact member
      | tail _ edge ih => exact sweeping.done _ ih List.not_mem_nil _ edge
    exact passed node known List.not_mem_nil
  fun_induction search next target fuel queue visited with
  | case1 => exact ended sweeping passed member
  | case2 => cases ran
  | case3 => cases ran
  | case4 fuel current queue visited not ih =>
    have step := sweeping.step.1
    rw [enqueue_eq_unseen] at ih ran step
    refine ih ran step (fun other known waits => ?_) (List.mem_append_left _ member)
    rw [List.mem_append, not_or] at waits
    rcases List.mem_append.mp known with old | new
    · by_cases here : other = current
      · exact here ▸ not
      · exact passed other old (by simp [here, waits.1])
    · exact absurd new waits.2

/-- A search ends at the latest where a walk ends. -/
theorem search_of_sweep {found : List α} (ran : sweep next fuel queue visited = some found)
    : ∃ result, search next target fuel queue visited = some result := by
  fun_induction search next target fuel queue visited with
  | case1 => exact ⟨none, rfl⟩
  | case2 => cases ran
  | case3 fuel current => exact ⟨some current, rfl⟩
  | case4 fuel current queue visited not ih => exact ih ran

end Epochs.Lib.Worklist
