import Epochs.Lib.Generations
import Mathlib.Data.ENat.Basic
import Mathlib.Order.Lattice.Nat

/-! Distances in a graph. A breadth-first walk that marks a node when it queues it takes the nodes
from its queue in the order of their distances, each at the depth it was queued with.
-/

namespace Epochs.Lib.Worklist

variable {α : Type} (next : α → List α)

/-- A node is reached in a number of steps and in no fewer. -/
def Distance (start : α) (count : Nat) (node : α) : Prop :=
  IsLeast {count | Steps next count start node} count

variable {next} {start node : α}

theorem Distance.unique {first second : Nat} (one : Distance next start first node)
    (two : Distance next start second node)
    : first = second :=
  IsLeast.unique one two

variable {count : Nat}

theorem exists_distance (steps : Steps next count start node)
    : ∃ distance ≤ count, Distance next start distance node :=
  ⟨sInf {count | Steps next count start node}, Nat.sInf_le steps, Nat.sInf_mem ⟨count, steps⟩,
    fun _ => Nat.sInf_le⟩

/-- Nodes that are reached are all reached within some number of steps. -/
theorem exists_deepest {nodes : List α} (reached : ∀ node ∈ nodes, Reaches next start node)
    : ∃ deep, ∀ node ∈ nodes, ∃ count ≤ deep, Steps next count start node := by
  induction nodes with
  | nil => exact ⟨0, by simp⟩
  | cons node rest ih =>
    obtain ⟨deep, within⟩ := ih fun other member => reached other (List.mem_cons_of_mem _ member)
    obtain ⟨count, steps⟩ := reaches_iff_steps.mp (reached node List.mem_cons_self)
    refine ⟨max count deep, List.forall_mem_cons.mpr ⟨⟨count, le_max_left _ _, steps⟩, ?_⟩⟩
    intro other member
    obtain ⟨count', less, steps'⟩ := within other member
    exact ⟨count', le_trans less (le_max_right _ _), steps'⟩

theorem distance_start : Distance next start 0 start := ⟨rfl, fun _ _ => Nat.zero_le _⟩

/-- Only the start is no step away. -/
theorem Distance.pos_iff (distance : Distance next start count node)
    : 0 < count ↔ node ≠ start := by
  constructor
  · rintro more rfl
    exact absurd (distance.unique distance_start) (Nat.ne_of_gt more)
  · intro other
    refine Nat.pos_of_ne_zero fun none => other ?_
    subst none
    exact distance.1.symm

/-- The generations of a node are the nodes that many steps away. -/
theorem mem_generation_iff
    : node ∈ generation next [start] count ↔ Steps next count start node := by
  induction count generalizing node with
  | zero =>
    rw [generation, List.mem_singleton]
    exact eq_comm
  | succ count ih =>
    rw [generation, List.mem_flatMap]
    exact exists_congr fun middle => and_congr_left' ih

-- Layers

variable (next) in
/-- The nodes that a walk has taken from its queue and those it has queued, with their depths: each
once, in the order of their distances, and with the neighbours of all that were taken above a
greatest depth.
-/
structure Layered (limit : ℕ∞) (start : α) (done queue : List (α × Nat)) : Prop where
  distances : ∀ pair ∈ done ++ queue, Distance next start pair.2 pair.1
  shallow : ∀ pair ∈ done ++ queue, (pair.2 : ℕ∞) ≤ limit
  ordered : (done ++ queue).Pairwise fun first second => first.2 ≤ second.2
  narrow : ∀ first ∈ queue, ∀ second ∈ queue, second.2 ≤ first.2 + 1
  distinct : ((done ++ queue).map Prod.fst).Nodup
  started : start ∈ (done ++ queue).map Prod.fst
  followed : ∀ pair ∈ done, (pair.2 : ℕ∞) < limit → ∀ neighbour ∈ next pair.1,
    neighbour ∈ (done ++ queue).map Prod.fst

theorem layered_start (limit : ℕ∞) (start : α) : Layered next limit start [] [(start, 0)] where
  distances pair member := List.mem_singleton.mp member ▸ distance_start
  shallow pair member := List.mem_singleton.mp member ▸ bot_le
  ordered := List.pairwise_singleton _ _
  narrow first one second two := by
    rw [List.mem_singleton.mp one, List.mem_singleton.mp two]
    exact Nat.zero_le _
  distinct := List.nodup_singleton _
  started := List.mem_singleton_self _
  followed _ none := by cases none

namespace Layered

variable {limit : ℕ∞} {done queue : List (α × Nat)}

/-- A node within the greatest depth is met, or something nearer still waits. -/
theorem met_or_waits (layered : Layered next limit start done queue)
    (within : (count : ℕ∞) ≤ limit) (steps : Steps next count start node)
    : node ∈ (done ++ queue).map Prod.fst ∨ ∃ pair ∈ queue, pair.2 < count := by
  induction count generalizing node with
  | zero => exact .inl (steps ▸ layered.started)
  | succ count ih =>
    obtain ⟨middle, earlier, edge⟩ := steps
    have below : (count : ℕ∞) < limit :=
      lt_of_lt_of_le (Nat.cast_lt.mpr (Nat.lt_succ_self count)) within
    rcases ih below.le earlier with met | ⟨pair, waits, nearer⟩
    · obtain ⟨pair, member, rfl⟩ := List.mem_map.mp met
      have near : pair.2 ≤ count := (layered.distances pair member).2 earlier
      rcases List.mem_append.mp member with taken | waits
      · exact .inl (layered.followed pair taken
          (lt_of_le_of_lt (Nat.cast_le.mpr near) below) node edge)
      · exact .inr ⟨pair, waits, Nat.lt_succ_of_le near⟩
    · exact .inr ⟨pair, waits, Nat.lt_succ_of_lt nearer⟩

variable {current : α} {depth : Nat}

/-- A neighbour of the node that is next in the queue is one step further away, if it was not met. -/
theorem distance_neighbour
    (layered : Layered next limit start done ((current, depth) :: queue))
    (below : (depth : ℕ∞) < limit) (edge : node ∈ next current)
    (fresh : node ∉ (done ++ (current, depth) :: queue).map Prod.fst)
    : Distance next start (depth + 1) node := by
  have here := layered.distances (current, depth) (by simp)
  refine ⟨⟨current, here.1, edge⟩, fun count steps => ?_⟩
  by_contra nearer
  have within : (count : ℕ∞) ≤ limit := le_trans (Nat.cast_le.mpr (by omega)) below.le
  rcases layered.met_or_waits within steps with met | ⟨pair, waits, less⟩
  · exact fresh met
  · have least : depth ≤ pair.2 := by
      rcases List.mem_cons.mp waits with rfl | later
      · exact Nat.le_refl _
      · exact (List.pairwise_cons.mp (List.pairwise_append.mp layered.ordered).2.1).1 pair later
    omega

/-- The node that is next is taken, and what was not met of its neighbours is queued. -/
theorem step {current : α} {depth : Nat}
    (layered : Layered next limit start done ((current, depth) :: queue)) {new : List α}
    (distinct : new.Nodup)
    (fresh : ∀ node ∈ new, (depth : ℕ∞) < limit ∧ node ∈ next current
      ∧ node ∉ (done ++ (current, depth) :: queue).map Prod.fst)
    (all : (depth : ℕ∞) < limit → ∀ neighbour ∈ next current,
      neighbour ∈ (done ++ (current, depth) :: queue).map Prod.fst ∨ neighbour ∈ new)
    : Layered next limit start (done ++ [(current, depth)])
        (queue ++ new.map fun node => (node, depth + 1)) := by
  have together : done ++ [(current, depth)] ++ (queue ++ new.map fun node => (node, depth + 1))
      = done ++ (current, depth) :: queue ++ new.map fun node => (node, depth + 1) := by simp
  have names : (new.map fun node => (node, depth + 1)).map Prod.fst = new := by
    rw [List.map_map]
    exact List.map_id new
  have head := layered.narrow (current, depth) List.mem_cons_self
  have later : ∀ pair ∈ queue, depth ≤ pair.2 :=
    (List.pairwise_cons.mp (List.pairwise_append.mp layered.ordered).2.1).1
  refine ⟨?_, ?_, ?_, ?_, ?_, ?_, ?_⟩
  · rw [together]
    intro pair member
    rcases List.mem_append.mp member with old | added
    · exact layered.distances pair old
    · obtain ⟨node, inNew, rfl⟩ := List.mem_map.mp added
      obtain ⟨below, edge, unmet⟩ := fresh node inNew
      exact layered.distance_neighbour below edge unmet
  · rw [together]
    intro pair member
    rcases List.mem_append.mp member with old | added
    · exact layered.shallow pair old
    · obtain ⟨node, inNew, rfl⟩ := List.mem_map.mp added
      exact Order.add_one_le_of_lt (fresh node inNew).1
  · rw [together]
    refine List.pairwise_append.mpr ⟨layered.ordered, ?_, ?_⟩
    · exact List.pairwise_map.mpr (List.pairwise_of_forall fun _ _ => Nat.le_refl _)
    · intro first old second added
      obtain ⟨node, -, rfl⟩ := List.mem_map.mp added
      rcases List.mem_append.mp old with taken | waits
      · exact Nat.le_succ_of_le ((List.pairwise_append.mp layered.ordered).2.2 first taken
          (current, depth) List.mem_cons_self)
      · exact head first waits
  · intro first one second two
    rcases List.mem_append.mp two with old | added
    · have bound := head second (List.mem_cons_of_mem _ old)
      rcases List.mem_append.mp one with old' | added'
      · have := later first old'
        simp only at bound
        omega
      · obtain ⟨_, -, rfl⟩ := List.mem_map.mp added'
        simp only at bound ⊢
        omega
    · obtain ⟨_, -, rfl⟩ := List.mem_map.mp added
      rcases List.mem_append.mp one with old' | added'
      · have := later first old'
        simp only
        omega
      · obtain ⟨_, -, rfl⟩ := List.mem_map.mp added'
        simp only
        omega
  · rw [together, List.map_append, names]
    refine List.nodup_append.mpr ⟨layered.distinct, distinct, ?_⟩
    rintro node old _ inNew rfl
    exact (fresh node inNew).2.2 old
  · rw [together, List.map_append]
    exact List.mem_append_left _ layered.started
  · rw [together, List.map_append, names]
    intro pair taken below neighbour edge
    rcases List.mem_append.mp taken with old | here
    · exact List.mem_append_left _ (layered.followed pair old below neighbour edge)
    · cases List.mem_singleton.mp here
      exact List.mem_append.mpr (all below neighbour edge)

/-- In the end every node within the greatest depth was taken, at its distance. -/
theorem mem_done (layered : Layered next limit start done [])
    : (node, count) ∈ done ↔ (count : ℕ∞) ≤ limit ∧ Distance next start count node := by
  constructor
  · intro member
    have here := List.mem_append_left [] member
    exact ⟨layered.shallow _ here, layered.distances _ here⟩
  · rintro ⟨within, distance⟩
    rcases layered.met_or_waits within distance.1 with met | ⟨pair, waits, -⟩
    · obtain ⟨⟨_, depth⟩, member, rfl⟩ := List.mem_map.mp met
      rw [distance.unique (layered.distances _ member)]
      simpa using member
    · cases waits

/-- Taking the nodes of a queue one by one, and queueing what is not marked of their neighbours. -/
theorem step_unseen [DecidableEq α]
    (layered : Layered next limit start done ((current, depth) :: queue))
    (below : (depth : ℕ∞) < limit) {visited : List α}
    (marks : visited = (done ++ (current, depth) :: queue).map Prod.fst)
    : Layered next limit start (done ++ [(current, depth)])
        (queue ++ (unseen visited (next current)).map fun node => (node, depth + 1))
      ∧ visited ++ unseen visited (next current)
        = (done ++ [(current, depth)] ++ (queue ++ (unseen visited (next current)).map fun node =>
            (node, depth + 1))).map Prod.fst := by
  refine ⟨layered.step (nodup_unseen _ _) ?_ ?_, ?_⟩
  · intro node inNew
    obtain ⟨edge, unmarked⟩ := mem_unseen.mp inNew
    exact ⟨below, edge, marks ▸ unmarked⟩
  · intro _ neighbour edge
    by_cases marked : neighbour ∈ visited
    · exact .inl (marks ▸ marked)
    · exact .inr (mem_unseen.mpr ⟨edge, marked⟩)
  · simp [marks, Function.comp_def]

/-- The deepest nodes are taken without their neighbours. -/
theorem step_deepest
    (layered : Layered next limit start done ((current, depth) :: queue))
    (deepest : ¬ (depth : ℕ∞) < limit)
    : Layered next limit start (done ++ [(current, depth)]) queue := by
  have stepped := @step _ _ _ _ _ _ _ _ layered [] List.nodup_nil (by simp)
    (fun below => absurd below deepest)
  simpa using stepped

end Layered

-- Walks down to a depth

variable [DecidableEq α]

variable (next) in
/-- Visit the nodes of a queue and, breadth first, their neighbours down to a greatest depth, and
list all that are below the start.
-/
def explore (limit : Nat)
    : (fuel : Nat) → (queue : List (α × Nat)) → (visited found : List α) → Option (List α)
  | _, [], _, found => some found
  | 0, _ :: _, _, _ => none
  | fuel + 1, (current, depth) :: queue, visited, found =>
    if limit ≤ depth then
      explore limit fuel queue visited (if 0 < depth then found ++ [current] else found)
    else
      explore limit fuel
        (queue ++ (unseen visited (next current)).map fun node => (node, depth + 1))
        (visited ++ unseen visited (next current)) (if 0 < depth then found ++ [current] else found)

def belowStart (done : List (α × Nat)) : List α := (done.filter (0 < ·.2)).map Prod.fst

omit [DecidableEq α] in
theorem belowStart_append (done : List (α × Nat)) (current : α) (depth : Nat)
    : belowStart (done ++ [(current, depth)])
      = if 0 < depth then belowStart done ++ [current] else belowStart done := by
  split <;> simp_all [belowStart]

variable {limit fuel : Nat} {queue : List (α × Nat)} {visited found : List α}

/-- A walk lists the nodes below the start in the order in which it takes them. -/
theorem layered_of_explore {result : List α}
    (ran : explore next limit fuel queue visited found = some result) {done : List (α × Nat)}
    (layered : Layered next limit start done queue) (marks : visited = (done ++ queue).map Prod.fst)
    (listed : found = belowStart done)
    : ∃ all, Layered next limit start all [] ∧ result = belowStart all := by
  fun_induction explore next limit fuel queue visited found generalizing done with
  | case1 =>
    cases ran
    exact ⟨done, layered, listed⟩
  | case2 => cases ran
  | case3 fuel current depth queue visited found deepest ih =>
    rw [listed, ← belowStart_append] at ih ran
    exact ih ran (layered.step_deepest (not_lt.mpr (Nat.cast_le.mpr deepest))) (by simpa using marks)
      rfl
  | case4 fuel current depth queue visited found below ih =>
    rw [listed, ← belowStart_append] at ih ran
    obtain ⟨onward, marksOn⟩ := layered.step_unseen (Nat.cast_lt.mpr (Nat.lt_of_not_le below)) marks
    exact ih ran onward marksOn rfl

/-- A walk lists exactly the nodes within the greatest depth, each once and nearer ones first. -/
theorem explore_spec {result : List α}
    (ran : explore next limit fuel [(start, 0)] [start] [] = some result)
    : result.Nodup
      ∧ (∀ node, node ∈ result ↔ ∃ count, 1 ≤ count ∧ count ≤ limit ∧ Distance next start count node)
      ∧ result.Pairwise fun first second => ∀ near far, Distance next start near first
          → Distance next start far second → near ≤ far := by
  obtain ⟨all, layered, rfl⟩ := layered_of_explore ran (layered_start _ _) rfl rfl
  have distinct := layered.distinct
  have ordered := layered.ordered
  rw [List.append_nil] at distinct ordered
  refine ⟨(List.filter_sublist.map Prod.fst).nodup distinct, fun node => ?_, ?_⟩
  · simp only [belowStart, List.mem_map, List.mem_filter, decide_eq_true_eq]
    constructor
    · rintro ⟨⟨_, count⟩, ⟨member, positive⟩, rfl⟩
      obtain ⟨within, distance⟩ := layered.mem_done.mp member
      exact ⟨count, positive, Nat.cast_le.mp within, distance⟩
    · rintro ⟨count, positive, within, distance⟩
      exact ⟨(node, count), ⟨layered.mem_done.mpr ⟨Nat.cast_le.mpr within, distance⟩, positive⟩, rfl⟩
  · refine List.pairwise_map.mpr (List.Pairwise.imp_of_mem ?_ (ordered.sublist List.filter_sublist))
    intro first second one two le near far nearest farthest
    have atFirst := (layered.mem_done.mp (List.mem_filter.mp one).1).2
    have atSecond := (layered.mem_done.mp (List.mem_filter.mp two).1).2
    rwa [nearest.unique atFirst, farthest.unique atSecond]

/-- A budget for the queue and for what is not marked yet is enough. -/
theorem explore_returns {universe_ : Finset α} (inside : ∀ pair ∈ queue, pair.1 ∈ universe_)
    (closed : ∀ node ∈ universe_, ∀ neighbour ∈ next node, neighbour ∈ universe_)
    (enough : queue.length + (universe_ \ visited.toFinset).card ≤ fuel)
    : ∃ result, explore next limit fuel queue visited found = some result := by
  fun_induction explore next limit fuel queue visited found with
  | case1 fuel visited found => exact ⟨found, rfl⟩
  | case2 visited found pair queue =>
    rw [List.length_cons] at enough
    omega
  | case3 fuel current depth queue visited found deepest ih =>
    rw [List.length_cons] at enough
    exact ih (fun pair member => inside pair (List.mem_cons_of_mem _ member)) (by omega)
  | case4 fuel current depth queue visited found below ih =>
    rw [List.length_cons] at enough
    have newInside : ∀ node ∈ unseen visited (next current), node ∈ universe_ :=
      fun node inNew => closed current (inside _ List.mem_cons_self) node (mem_unseen.mp inNew).1
    have fewer := card_unmarked (nodup_unseen visited (next current))
      (fun node inNew => (mem_unseen.mp inNew).2) newInside
    refine ih (fun pair member => ?_) ?_
    · rcases List.mem_append.mp member with queued | added
      · exact inside pair (List.mem_cons_of_mem _ queued)
      · obtain ⟨node, inNew, rfl⟩ := List.mem_map.mp added
        exact newInside node inNew
    · rw [List.length_append, List.length_map]
      omega

-- Searches that carry paths

variable (next) in
/-- A list of nodes that leads from one node to another, each a neighbour of the one before. -/
structure IsPath (start goal : α) (path : List α) : Prop where
  head : path.head? = some start
  last : path.getLast? = some goal
  chain : path.IsChain fun node neighbour => neighbour ∈ next node

variable {path : List α}

omit [DecidableEq α] in
theorem IsPath.concat {goal neighbour : α} (isPath : IsPath next start goal path)
    (edge : neighbour ∈ next goal)
    : IsPath next start neighbour (path ++ [neighbour]) where
  head := by rw [List.head?_append, isPath.head, Option.some_or]
  last := List.getLast?_concat
  chain := by
    refine List.isChain_append.mpr ⟨isPath.chain, List.isChain_singleton _, ?_⟩
    intro last isLast first isFirst
    cases isPath.last.symm.trans isLast
    cases isFirst
    exact edge

omit [DecidableEq α] in
/-- A path takes one step less than it has nodes. -/
theorem steps_of_isPath {goal : α} (isPath : IsPath next start goal path)
    : ∃ count, path.length = count + 1 ∧ Steps next count start goal := by
  induction path using List.reverseRecOn generalizing goal with
  | nil => cases isPath.head
  | append_singleton front node ih =>
    cases List.getLast?_concat.symm.trans isPath.last
    obtain ⟨chain, -, joins⟩ := List.isChain_append.mp isPath.chain
    cases front using List.reverseRecOn with
    | nil =>
      cases isPath.head
      exact ⟨0, rfl, rfl⟩
    | append_singleton front middle =>
      have head := isPath.head
      rw [List.head?_append_of_ne_nil _ (by simp)] at head
      obtain ⟨count, length, steps⟩ := @ih middle ⟨head, List.getLast?_concat, chain⟩
      exact ⟨count + 1, by rw [List.length_append, length, List.length_singleton], middle, steps,
        joins middle List.getLast?_concat node rfl⟩

variable (next) in
/-- Search breadth first for a node, with the path to each node that is queued. -/
def route (goal : α)
    : (fuel : Nat) → (queue : List (α × List α)) → (visited : List α) → Option (Option (List α))
  | _, [], _ => some none
  | 0, _ :: _, _ => none
  | fuel + 1, (current, path) :: queue, visited =>
    if current = goal then
      some (some path)
    else
      route goal fuel
        (queue ++ (unseen visited (next current)).map fun node => (node, path ++ [node]))
        (visited ++ unseen visited (next current))

def depthOf (item : α × List α) : α × Nat := (item.1, item.2.length - 1)

variable (next) in
/-- The queue of such a search: nodes with paths to them, over nodes that are marked. -/
structure Routed (start : α) (queue : List (α × List α)) (visited : List α) : Prop where
  paths : ∀ item ∈ queue, IsPath next start item.1 item.2
  distinct : ∀ item ∈ queue, item.2.Nodup
  marked : ∀ item ∈ queue, ∀ node ∈ item.2, node ∈ visited

omit [DecidableEq α] in
theorem routed_start (start : α) : Routed next start [(start, [start])] [start] where
  paths item member := by
    rw [List.mem_singleton.mp member]
    exact ⟨rfl, rfl, List.isChain_singleton _⟩
  distinct item member := List.mem_singleton.mp member ▸ List.nodup_singleton _
  marked item member node inside := by
    rwa [List.mem_singleton.mp member] at inside

variable {routes : List (α × List α)} {goal : α}

theorem Routed.step {current : α} {path : List α}
    (routed : Routed next start ((current, path) :: routes) visited)
    : Routed next start
        (routes ++ (unseen visited (next current)).map fun node => (node, path ++ [node]))
        (visited ++ unseen visited (next current)) := by
  have here := routed.paths (current, path) List.mem_cons_self
  refine ⟨fun item member => ?_, fun item member => ?_, fun item member node inside => ?_⟩
  all_goals
    rcases List.mem_append.mp member with old | added
  · exact routed.paths item (List.mem_cons_of_mem _ old)
  · obtain ⟨node, inNew, rfl⟩ := List.mem_map.mp added
    exact here.concat (mem_unseen.mp inNew).1
  · exact routed.distinct item (List.mem_cons_of_mem _ old)
  · obtain ⟨node, inNew, rfl⟩ := List.mem_map.mp added
    refine List.nodup_append.mpr ⟨routed.distinct _ List.mem_cons_self, List.nodup_singleton _, ?_⟩
    rintro other onPath _ new rfl
    cases List.mem_singleton.mp new
    exact (mem_unseen.mp inNew).2 (routed.marked _ List.mem_cons_self _ onPath)
  · exact List.mem_append_left _ (routed.marked item (List.mem_cons_of_mem _ old) node inside)
  · obtain ⟨new, inNew, rfl⟩ := List.mem_map.mp added
    rcases List.mem_append.mp inside with onPath | isNew
    · exact List.mem_append_left _ (routed.marked _ List.mem_cons_self node onPath)
    · exact List.mem_append_right _ (List.mem_singleton.mp isNew ▸ inNew)

/-- The nodes of the queue are layered by the steps of their paths, so that a path that is found is
a shortest one.
-/
theorem shortest_of_route (ran : route next goal fuel routes visited = some (some path))
    {done : List (α × Nat)} (routed : Routed next start routes visited)
    (layered : Layered next ⊤ start done (routes.map depthOf))
    (marks : visited = (done ++ routes.map depthOf).map Prod.fst)
    : IsPath next start goal path ∧ path.Nodup
      ∧ Distance next start (path.length - 1) goal := by
  fun_induction route next goal fuel routes visited generalizing done with
  | case1 => cases ran
  | case2 => cases ran
  | case3 =>
    cases ran
    exact ⟨routed.paths _ List.mem_cons_self, routed.distinct _ List.mem_cons_self,
      layered.distances (goal, path.length - 1) (by simp [depthOf])⟩
  | case4 fuel current way routes visited other ih =>
    obtain ⟨count, length, -⟩ := steps_of_isPath (routed.paths _ List.mem_cons_self)
    obtain ⟨onward, marksOn⟩ := layered.step_unseen (ENat.natCast_lt_top _) marks
    have added : (routes ++ (unseen visited (next current)).map fun node =>
        (node, way ++ [node])).map depthOf
        = routes.map depthOf ++ (unseen visited (next current)).map fun node =>
          (node, way.length - 1 + 1) := by
      simp only [List.map_append, List.map_map]
      congr 2
      funext node
      simp only [Function.comp_apply, depthOf, List.length_append, List.length_singleton]
      rw [length]
      rfl
    exact ih ran routed.step (added ▸ onward) (added ▸ marksOn)

/-- Apart from the paths it is a search for the node. -/
theorem search_of_route
    : search next (· = goal) fuel (routes.map Prod.fst) visited
      = (route next goal fuel routes visited).map fun found => found.map fun _ => goal := by
  fun_induction route next goal fuel routes visited with
  | case1 => simp [search]
  | case2 => rfl
  | case3 fuel path routes visited =>
    rw [List.map_cons, search, if_pos rfl]
    rfl
  | case4 fuel current way routes visited other ih =>
    rw [List.map_cons, search, if_neg other, enqueue_eq_unseen, ← ih]
    simp [Function.comp_def]

/-- A search from one node returns a shortest path to the other, or reports that there is none. -/
theorem route_spec {result : Option (List α)}
    (ran : route next goal fuel [(start, [start])] [start] = some result)
    : (result = none ↔ ¬ Reaches next start goal)
      ∧ ∀ path, result = some path
        → IsPath next start goal path
          ∧ path.Nodup
          ∧ ∀ other, IsPath next start goal other → path.length ≤ other.length := by
  have found {path : List α} (is : result = some path) := shortest_of_route (is ▸ ran)
    (routed_start start) (layered_start ⊤ start) rfl
  refine ⟨⟨fun none reaches => ?_, fun apart => ?_⟩, fun path is => ?_⟩
  · have searched := @search_of_route _ next _ fuel [start] [(start, [start])] goal
    rw [ran, none] at searched
    exact not_target_of_search searched (sweeping_start start)
      (fun node marked unqueued => absurd marked unqueued) (List.mem_singleton_self start) reaches rfl
  · cases result with
    | none => rfl
    | some path => exact absurd (reaches_iff_steps.mpr ⟨_, (found rfl).2.2.1⟩) apart
  · obtain ⟨isPath, distinct, distance⟩ := found is
    refine ⟨isPath, distinct, fun other also => ?_⟩
    obtain ⟨count, length, steps⟩ := steps_of_isPath also
    have least : path.length - 1 ≤ count := distance.2 steps
    omega

theorem route_returns {universe_ : Finset α} (inside : start ∈ universe_)
    (closed : ∀ node ∈ universe_, ∀ neighbour ∈ next node, neighbour ∈ universe_)
    (enough : 1 + universe_.card ≤ fuel)
    : ∃ result, route next goal fuel [(start, [start])] [start] = some result := by
  have fewer : (universe_ \ [start].toFinset).card ≤ universe_.card :=
    Finset.card_le_card Finset.sdiff_subset
  obtain ⟨marked, swept⟩ := @sweep_returns _ next _ fuel [start] [start] universe_
    (sweeping_start start) (by simpa using inside) closed (by rw [List.length_singleton]; omega)
  obtain ⟨result, searched⟩ := @search_of_sweep _ next (· = goal) _ _ _ _ _ _ swept
  have same := @search_of_route _ next _ fuel [start] [(start, [start])] goal
  rw [show [(start, [start])].map Prod.fst = [start] from rfl, searched] at same
  obtain ⟨found, ran, -⟩ := Option.map_eq_some_iff.mp same.symm
  exact ⟨found, ran⟩

end Epochs.Lib.Worklist
