import Mathlib.Algebra.BigOperators.Group.Finset.Basic
import Mathlib.Logic.Relation

/-! Breadth-first walks over a graph given by the neighbours of each node. A walk with enough
budget visits exactly what can be reached, each node once.
-/

namespace Epochs.Lib.Worklist

variable {α : Type} (next : α → List α)

def Reaches : α → α → Prop := Relation.ReflTransGen fun node neighbour => neighbour ∈ next node

variable [DecidableEq α]

/-- Visit the nodes of a queue and, breadth first, their neighbours. -/
def walk : (fuel : Nat) → (queue visited : List α) → Option (List α)
  | _, [], visited => some visited
  | 0, _ :: _, _ => none
  | fuel + 1, current :: queue, visited =>
    if current ∈ visited then
      walk fuel queue visited
    else
      walk fuel (queue ++ next current) (visited ++ [current])

variable {next} {fuel : Nat} {queue visited found : List α}

variable {node : α}

/-- What is visited can be reached. -/
theorem reaches_of_mem_walk (ran : walk next fuel queue visited = some found)
    (member : node ∈ found)
    : node ∈ visited ∨ ∃ start ∈ queue, Reaches next start node := by
  fun_induction walk next fuel queue visited with
  | case1 =>
    cases ran
    exact .inl member
  | case2 => cases ran
  | case3 fuel current queue visited seen ih =>
    exact (ih ran).imp_right fun ⟨start, here, reaches⟩ =>
      ⟨start, List.mem_cons_of_mem _ here, reaches⟩
  | case4 fuel current queue visited unseen ih =>
    rcases ih ran with earlier | ⟨start, here, reaches⟩
    · rcases List.mem_append.mp earlier with old | new
      · exact .inl old
      · exact .inr ⟨current, List.mem_cons_self, List.mem_singleton.mp new ▸ .refl⟩
    · rcases List.mem_append.mp here with queued | neighbour
      · exact .inr ⟨start, List.mem_cons_of_mem _ queued, reaches⟩
      · exact .inr ⟨current, List.mem_cons_self, .head neighbour reaches⟩

/-- Everything in the queue is visited, and with a node its neighbours. -/
theorem walk_covers (ran : walk next fuel queue visited = some found)
    (pending : ∀ node ∈ visited, ∀ neighbour ∈ next node, neighbour ∈ visited ∨ neighbour ∈ queue)
    : (∀ node, node ∈ visited ∨ node ∈ queue → node ∈ found)
      ∧ ∀ node ∈ found, ∀ neighbour ∈ next node, neighbour ∈ found := by
  fun_induction walk next fuel queue visited with
  | case1 =>
    cases ran
    exact ⟨by simp, by simpa using pending⟩
  | case2 => cases ran
  | case3 fuel current queue visited seen ih =>
    have moved {node : α} (waits : node ∈ visited ∨ node ∈ current :: queue)
        : node ∈ visited ∨ node ∈ queue := by
      rcases waits with old | queued
      · exact .inl old
      · rcases List.mem_cons.mp queued with rfl | later
        · exact .inl seen
        · exact .inr later
    obtain ⟨covered, closed⟩ := ih ran fun node old neighbour edge =>
      moved (pending node old neighbour edge)
    exact ⟨fun node waits => covered node (moved waits), closed⟩
  | case4 fuel current queue visited unseen ih =>
    have moved {node : α} (waits : node ∈ visited ∨ node ∈ current :: queue)
        : node ∈ visited ++ [current] ∨ node ∈ queue ++ next current := by
      rcases waits with old | queued
      · exact .inl (List.mem_append_left _ old)
      · rcases List.mem_cons.mp queued with rfl | later
        · exact .inl (List.mem_append_right _ (List.mem_singleton_self _))
        · exact .inr (List.mem_append_left _ later)
    obtain ⟨covered, closed⟩ := ih ran fun node known neighbour edge => by
      rcases List.mem_append.mp known with old | new
      · exact moved (pending node old neighbour edge)
      · rw [List.mem_singleton.mp new] at edge
        exact .inr (List.mem_append_right _ edge)
    exact ⟨fun node waits => covered node (moved waits), closed⟩

/-- A walk visits exactly what can be reached. -/
theorem mem_walk (ran : walk next fuel queue visited = some found)
    (closed : ∀ node ∈ visited, ∀ neighbour ∈ next node, neighbour ∈ visited) {node : α}
    : node ∈ found ↔ node ∈ visited ∨ ∃ start ∈ queue, Reaches next start node := by
  refine ⟨reaches_of_mem_walk ran, ?_⟩
  obtain ⟨covered, complete⟩ := walk_covers ran fun node old neighbour edge =>
    .inl (closed node old neighbour edge)
  rintro (old | ⟨start, queued, reaches⟩)
  · exact covered node (.inl old)
  · induction reaches with
    | refl => exact covered start (.inr queued)
    | tail _ edge ih => exact complete _ ih _ edge

theorem nodup_walk (ran : walk next fuel queue visited = some found) (distinct : visited.Nodup)
    : found.Nodup := by
  fun_induction walk next fuel queue visited with
  | case1 =>
    cases ran
    exact distinct
  | case2 => cases ran
  | case3 fuel current queue visited seen ih => exact ih ran distinct
  | case4 fuel current queue visited unseen ih =>
    refine ih ran (List.nodup_append.mpr ⟨distinct, List.nodup_singleton _, ?_⟩)
    rintro other member _ new rfl
    exact unseen (List.mem_singleton.mp new ▸ member)

/-- A budget for the queue and for the edges that leave what is not visited yet is enough. -/
theorem walk_returns {universe_ : Finset α} (inside : ∀ node ∈ queue, node ∈ universe_)
    (closed : ∀ node ∈ universe_, ∀ neighbour ∈ next node, neighbour ∈ universe_)
    (enough : queue.length + ∑ node ∈ universe_ \ visited.toFinset, (next node).length ≤ fuel)
    : ∃ found, walk next fuel queue visited = some found := by
  fun_induction walk next fuel queue visited with
  | case1 fuel visited => exact ⟨visited, rfl⟩
  | case2 visited current queue =>
    rw [List.length_cons] at enough
    omega
  | case3 fuel current queue visited seen ih =>
    rw [List.length_cons] at enough
    exact ih (fun node member => inside node (List.mem_cons_of_mem _ member)) (by omega)
  | case4 fuel current queue visited unseen ih =>
    rw [List.length_cons] at enough
    have here : current ∈ universe_ \ visited.toFinset := by
      simp [inside current List.mem_cons_self, unseen]
    have left : universe_ \ (visited ++ [current]).toFinset
        = (universe_ \ visited.toFinset).erase current := by
      ext node
      simp only [Finset.mem_sdiff, List.mem_toFinset, List.mem_append, List.mem_singleton,
        Finset.mem_erase]
      tauto
    have total := Finset.add_sum_erase (universe_ \ visited.toFinset)
      (fun node => (next node).length) here
    refine ih (fun node member => ?_) ?_
    · rcases List.mem_append.mp member with queued | neighbour
      · exact inside node (List.mem_cons_of_mem _ queued)
      · exact closed current (inside current List.mem_cons_self) node neighbour
    · rw [left, List.length_append]
      omega

-- Walks that mark nodes when they are queued

def enqueue (queue visited : List α) : List α → List α × List α
  | [] => (queue, visited)
  | node :: rest =>
    if node ∈ visited then enqueue queue visited rest
    else enqueue (queue ++ [node]) (visited ++ [node]) rest

/-- What queueing some nodes adds: those not marked before, each once. -/
theorem enqueue_spec (queue visited nodes : List α)
    : ∃ new, enqueue queue visited nodes = (queue ++ new, visited ++ new)
        ∧ new.Nodup ∧ (∀ node ∈ new, node ∉ visited)
        ∧ ∀ node, node ∈ new ↔ node ∈ nodes ∧ node ∉ visited := by
  induction nodes generalizing queue visited with
  | nil => exact ⟨[], by simp [enqueue]⟩
  | cons node rest ih =>
    rw [enqueue]
    split
    · rename_i seen
      obtain ⟨new, added, distinct, fresh, members⟩ := ih queue visited
      refine ⟨new, added, distinct, fresh, fun other => ?_⟩
      rw [members, List.mem_cons]
      constructor
      · exact fun ⟨inRest, unseen⟩ => ⟨.inr inRest, unseen⟩
      · rintro ⟨rfl | inRest, unseen⟩
        · exact absurd seen unseen
        · exact ⟨inRest, unseen⟩
    · rename_i unseen
      obtain ⟨new, added, distinct, fresh, members⟩ := ih (queue ++ [node]) (visited ++ [node])
      refine ⟨node :: new, by rw [added]; simp, List.nodup_cons.mpr ⟨?_, distinct⟩, ?_, fun other => ?_⟩
      · exact fun inNew => fresh node inNew (by simp)
      · intro other inNew
        rcases List.mem_cons.mp inNew with rfl | later
        · exact unseen
        · exact fun seen => fresh other later (List.mem_append_left _ seen)
      · rw [List.mem_cons, members, List.mem_cons, List.mem_append, List.mem_singleton]
        by_cases same : other = node
        · simp [same, unseen]
        · simp [same]

variable (next)

/-- Visit the nodes of a queue and, breadth first, their neighbours, each of which is queued at
most once. The result are all nodes that were queued.
-/
def sweep : (fuel : Nat) → (queue visited : List α) → Option (List α)
  | _, [], visited => some visited
  | 0, _ :: _, _ => none
  | fuel + 1, current :: queue, visited =>
    sweep fuel (enqueue queue visited (next current)).1 (enqueue queue visited (next current)).2

/-- The state of such a walk: what is queued is marked, each node once, and the neighbours of what
is no longer queued are marked.
-/
structure Sweeping (queue visited : List α) : Prop where
  distinct : visited.Nodup
  queued : queue.Nodup
  marked : ∀ node ∈ queue, node ∈ visited
  done : ∀ node ∈ visited, node ∉ queue → ∀ neighbour ∈ next node, neighbour ∈ visited

variable {next}

omit [DecidableEq α] in
theorem sweeping_start (start : α) : Sweeping next [start] [start] where
  distinct := List.nodup_singleton _
  queued := List.nodup_singleton _
  marked := by simp
  done node visited unqueued := absurd visited unqueued

/-- One node is taken from the queue. -/
theorem Sweeping.step {current : α} (sweeping : Sweeping next (current :: queue) visited)
    : Sweeping next (enqueue queue visited (next current)).1
        (enqueue queue visited (next current)).2
      ∧ current ∉ (enqueue queue visited (next current)).1 := by
  obtain ⟨new, added, distinct, fresh, members⟩ := enqueue_spec queue visited (next current)
  rw [added]
  obtain ⟨unqueued, queued⟩ := List.nodup_cons.mp sweeping.queued
  have currentMarked := sweeping.marked current List.mem_cons_self
  refine ⟨⟨?_, ?_, ?_, ?_⟩, ?_⟩
  · refine List.nodup_append.mpr ⟨sweeping.distinct, distinct, ?_⟩
    rintro node old _ inNew rfl
    exact fresh node inNew old
  · refine List.nodup_append.mpr ⟨queued, distinct, ?_⟩
    rintro node old _ inNew rfl
    exact fresh node inNew (sweeping.marked node (List.mem_cons_of_mem _ old))
  · intro node member
    rcases List.mem_append.mp member with old | inNew
    · exact List.mem_append_left _ (sweeping.marked node (List.mem_cons_of_mem _ old))
    · exact List.mem_append_right _ inNew
  · intro node member waits neighbour edge
    rw [List.mem_append, not_or] at waits
    rcases List.mem_append.mp member with old | inNew
    · by_cases here : node = current
      · subst here
        by_cases seen : neighbour ∈ visited
        · exact List.mem_append_left _ seen
        · exact List.mem_append_right _ ((members neighbour).mpr ⟨edge, seen⟩)
      · refine List.mem_append_left _ (sweeping.done node old (fun queued => ?_) neighbour edge)
        rcases List.mem_cons.mp queued with same | later
        · exact here same
        · exact waits.1 later
    · exact absurd inNew waits.2
  · rw [List.mem_append, not_or]
    exact ⟨unqueued, fun inNew => fresh current inNew currentMarked⟩

/-- What is marked can be reached. -/
theorem reaches_of_mem_sweep (ran : sweep next fuel queue visited = some found)
    (member : node ∈ found)
    : node ∈ visited ∨ ∃ start ∈ queue, Reaches next start node := by
  fun_induction sweep next fuel queue visited with
  | case1 =>
    cases ran
    exact .inl member
  | case2 => cases ran
  | case3 fuel current queue visited ih =>
    obtain ⟨new, added, -, -, members⟩ := enqueue_spec queue visited (next current)
    rw [added] at ih ran
    have leads {other : α} (inNew : other ∈ new) : Reaches next current other :=
      .single ((members other).mp inNew).1
    rcases ih ran with earlier | ⟨start, here, reaches⟩
    · rcases List.mem_append.mp earlier with old | inNew
      · exact .inl old
      · exact .inr ⟨current, List.mem_cons_self, leads inNew⟩
    · rcases List.mem_append.mp here with queued | inNew
      · exact .inr ⟨start, List.mem_cons_of_mem _ queued, reaches⟩
      · exact .inr ⟨current, List.mem_cons_self, (leads inNew).trans reaches⟩

/-- Marks stay, and in the end all neighbours of marked nodes are marked. -/
theorem sweep_covers (ran : sweep next fuel queue visited = some found)
    (sweeping : Sweeping next queue visited)
    : (∀ node ∈ visited, node ∈ found) ∧ ∀ node ∈ found, ∀ neighbour ∈ next node, neighbour ∈ found := by
  fun_induction sweep next fuel queue visited with
  | case1 =>
    cases ran
    exact ⟨fun _ member => member, fun node member => sweeping.done node member (by simp)⟩
  | case2 => cases ran
  | case3 fuel current queue visited ih =>
    obtain ⟨covered, closed⟩ := ih ran sweeping.step.1
    obtain ⟨new, added, -⟩ := enqueue_spec queue visited (next current)
    rw [added] at covered
    exact ⟨fun node member => covered node (List.mem_append_left _ member), closed⟩

/-- A walk marks exactly what was marked and what can be reached from the queue. -/
theorem mem_sweep (ran : sweep next fuel queue visited = some found)
    (sweeping : Sweeping next queue visited)
    : node ∈ found ↔ node ∈ visited ∨ ∃ start ∈ queue, Reaches next start node := by
  refine ⟨reaches_of_mem_sweep ran, ?_⟩
  obtain ⟨covered, closed⟩ := sweep_covers ran sweeping
  rintro (old | ⟨start, queued, reaches⟩)
  · exact covered node old
  · induction reaches with
    | refl => exact covered start (sweeping.marked start queued)
    | tail _ edge ih => exact closed _ ih _ edge

/-- What is marked anew was not marked before. -/
theorem card_unmarked {universe_ : Finset α} {visited new : List α} (distinct : new.Nodup)
    (fresh : ∀ node ∈ new, node ∉ visited) (inside : ∀ node ∈ new, node ∈ universe_)
    : (universe_ \ (visited ++ new).toFinset).card + new.length
      = (universe_ \ visited.toFinset).card := by
  have split : universe_ \ (visited ++ new).toFinset
      = (universe_ \ visited.toFinset) \ new.toFinset := by
    ext node
    simp only [Finset.mem_sdiff, List.mem_toFinset, List.mem_append]
    tauto
  have part : new.toFinset ⊆ universe_ \ visited.toFinset := by
    intro node inNew
    rw [List.mem_toFinset] at inNew
    simp [inside node inNew, fresh node inNew]
  rw [split, Finset.card_sdiff_of_subset part, List.toFinset_card_of_nodup distinct]
  have most := Finset.card_le_card part
  rw [List.toFinset_card_of_nodup distinct] at most
  omega

/-- A budget for the queue and for what is not marked yet is enough. -/
theorem sweep_returns {universe_ : Finset α} (sweeping : Sweeping next queue visited)
    (inside : ∀ node ∈ queue, node ∈ universe_)
    (closed : ∀ node ∈ universe_, ∀ neighbour ∈ next node, neighbour ∈ universe_)
    (enough : queue.length + (universe_ \ visited.toFinset).card ≤ fuel)
    : ∃ found, sweep next fuel queue visited = some found := by
  fun_induction sweep next fuel queue visited with
  | case1 fuel visited => exact ⟨visited, rfl⟩
  | case2 visited current queue =>
    rw [List.length_cons] at enough
    omega
  | case3 fuel current queue visited ih =>
    have step := sweeping.step.1
    obtain ⟨new, added, distinct, fresh, members⟩ := enqueue_spec queue visited (next current)
    rw [added] at step ih ⊢
    have newInside : ∀ node ∈ new, node ∈ universe_ := fun node inNew =>
      closed current (inside current List.mem_cons_self) node ((members node).mp inNew).1
    have fewer := card_unmarked distinct fresh newInside
    refine ih step (fun node member => ?_) ?_
    · rcases List.mem_append.mp member with queued | inNew
      · exact inside node (List.mem_cons_of_mem _ queued)
      · exact newInside node inNew
    · rw [List.length_cons] at enough
      rw [List.length_append]
      dsimp only
      omega

-- Steps

variable (next) in
def Steps : Nat → α → α → Prop
  | 0, start, node => start = node
  | count + 1, start, node => ∃ middle, Steps count start middle ∧ node ∈ next middle

variable {start : α}

omit [DecidableEq α] in
theorem reaches_iff_steps
    : Reaches next start node ↔ ∃ count, Steps next count start node := by
  constructor
  · intro reaches
    induction reaches with
    | refl => exact ⟨0, rfl⟩
    | tail _ edge ih =>
      obtain ⟨count, steps⟩ := ih
      exact ⟨count + 1, _, steps, edge⟩
  · rintro ⟨count, steps⟩
    induction count generalizing node with
    | zero => exact steps ▸ .refl
    | succ count ih =>
      obtain ⟨middle, earlier, edge⟩ := steps
      exact (ih earlier).tail edge

omit [DecidableEq α] in
theorem transGen_of_steps {count : Nat} (some_ : 1 ≤ count)
    (steps : Steps next count start node)
    : Relation.TransGen (fun node neighbour => neighbour ∈ next node) start node := by
  induction count generalizing node with
  | zero => omega
  | succ count ih =>
    obtain ⟨middle, earlier, edge⟩ := steps
    cases count with
    | zero => exact .single (show node ∈ next start from earlier ▸ edge)
    | succ count => exact (ih (by omega) earlier).tail edge

variable (next) in
def deeper (limit : Nat) (node : α × Nat) : List (α × Nat) :=
  if limit ≤ node.2 then [] else (next node.1).map fun neighbour => (neighbour, node.2 + 1)

omit [DecidableEq α] in
/-- What is reached at a depth is reached in that many steps. -/
theorem reaches_deeper_iff {limit : Nat} {depth : Nat}
    : Reaches (deeper next limit) (start, 0) (node, depth)
      ↔ depth ≤ limit ∧ Steps next depth start node := by
  constructor
  · intro reaches
    generalize target : (node, depth) = last at reaches
    induction reaches generalizing node depth with
    | refl =>
      cases target
      exact ⟨Nat.zero_le _, rfl⟩
    | @tail middle last _ edge ih =>
      subst target
      obtain ⟨-, steps⟩ := @ih middle.1 middle.2 rfl
      unfold deeper at edge
      split at edge
      · cases edge
      · rename_i above
        obtain ⟨neighbour, here, same⟩ := List.mem_map.mp edge
        cases same
        exact ⟨by omega, middle.1, steps, here⟩
  · rintro ⟨within, steps⟩
    induction depth generalizing node with
    | zero => exact steps ▸ .refl
    | succ depth ih =>
      obtain ⟨middle, earlier, edge⟩ := steps
      refine (ih (by omega) earlier).tail ?_
      rw [deeper, if_neg (by simp only; omega)]
      exact List.mem_map.mpr ⟨node, edge, rfl⟩

/-- A walk down to a greatest depth returns when its budget covers every node at every depth. -/
theorem sweep_deeper_returns {universe_ : Finset α} {limit fuel : Nat}
    (inside : start ∈ universe_)
    (closed : ∀ node ∈ universe_, ∀ neighbour ∈ next node, neighbour ∈ universe_)
    (enough : 1 + universe_.card * (limit + 1) ≤ fuel)
    : ∃ found, sweep (deeper next limit) fuel [(start, 0)] [(start, 0)] = some found := by
  have few : (universe_ ×ˢ Finset.range (limit + 1)).card = universe_.card * (limit + 1) := by
    rw [Finset.card_product, Finset.card_range]
  have fewer := Finset.card_le_card
    (@Finset.sdiff_subset _ _ (universe_ ×ˢ Finset.range (limit + 1)) [(start, 0)].toFinset)
  refine @sweep_returns _ _ _ _ _ _ (universe_ ×ˢ Finset.range (limit + 1)) (sweeping_start _) ?_ ?_ ?_
  · intro node member
    rw [List.mem_singleton.mp member]
    exact Finset.mem_product.mpr ⟨inside, Finset.mem_range.mpr (Nat.succ_pos limit)⟩
  · rintro ⟨node, depth⟩ member next_ edge
    obtain ⟨known, -⟩ := Finset.mem_product.mp member
    unfold deeper at edge
    split at edge
    · cases edge
    · rename_i above
      obtain ⟨neighbour, here, rfl⟩ := List.mem_map.mp edge
      refine Finset.mem_product.mpr ⟨closed node known neighbour here, Finset.mem_range.mpr ?_⟩
      simp only at above ⊢
      omega
  · rw [List.length_singleton]
    omega

end Epochs.Lib.Worklist
