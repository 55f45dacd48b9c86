import Epochs.Ql.Engine
import Epochs.Store.Histories

/-! The edges of a pattern. An edge is followed breadth first over commits and the depths at which
they are met, so that it leads to the commits that some number of steps within its bounds leads to.
-/

namespace Epochs.Ql.Engine

open Lib DiskStore Worklist

variable [Blake3] {store : DiskStore}

-- Commits of listed branches

/-- A commit that a listed branch reaches. -/
def Listed (store : DiskStore) (hash : Hash) : Prop :=
  ∃ name target, store.tip [name] = some target ∧ store.view.Reaches target hash

variable {hash : Hash}

theorem Listed.of_reaches {reached : Hash} (listed : Listed store hash)
    (reaches : store.view.Reaches hash reached)
    : Listed store reached := by
  obtain ⟨name, target, held, from_⟩ := listed
  exact ⟨name, target, held, from_.trans reaches⟩

theorem Looks.listed {middle : DiskStore} (settled : store.Settled) (coherent : store.Coherent)
    (looks : Looks store middle) (hash : Hash)
    : Listed middle hash ↔ Listed store hash := by
  have tips (name : String) : middle.tip [name] = store.tip [name] :=
    looks.calls.toServes.tip settled [name]
  simp only [Listed, tips, looks.view ⟨settled.sane, coherent⟩]

-- Following an edge

def stepsOf (view : View) (children : AssocMap Hash (List Hash)) (toward : Bool) (hash : Hash)
    : List Hash :=
  if toward then view.parents hash else (AssocMap.lookup hash children).getD []

def Wanted (start : Hash) (minHops maxHops : Nat) (hash : Hash) (depth : Nat) : Prop :=
  minHops ≤ depth ∧ depth ≤ maxHops ∧ hash ≠ start

omit [Blake3] in
theorem enqueue_eq (queue visited : List (Hash × Nat)) (depth : Nat) (hashes : List Hash)
    : expandLoop.enqueue queue visited depth hashes
      = enqueue queue visited (hashes.map fun hash => (hash, depth)) := by
  induction hashes generalizing queue visited with
  | nil => rfl
  | cons hash rest ih =>
    rw [expandLoop.enqueue, List.map_cons, enqueue]
    split
    · exact ih queue visited
    · exact ih _ _

/-- What has been collected: the wanted commits among those that were taken from the queue. -/
def Collected (start : Hash) (minHops maxHops : Nat) (queue visited : List (Hash × Nat))
    (results : List Hash) : Prop :=
  ∀ hash, hash ∈ results
    ↔ ∃ depth, (hash, depth) ∈ visited ∧ (hash, depth) ∉ queue ∧ Wanted start minHops maxHops hash depth

omit [Blake3] in
/-- One commit more is taken from the queue. -/
theorem Collected.step {start current : Hash} {minHops maxHops depth : Nat}
    {queue visited : List (Hash × Nat)} {results : List Hash} {next : Hash × Nat → List (Hash × Nat)}
    (collected : Collected start minHops maxHops ((current, depth) :: queue) visited results)
    (sweeping : Sweeping next ((current, depth) :: queue) visited)
    : Collected start minHops maxHops
        (enqueue queue visited (next (current, depth))).1
        (enqueue queue visited (next (current, depth))).2
        (if minHops ≤ depth ∧ depth ≤ maxHops ∧ current ≠ start ∧ current ∉ results then
          results ++ [current]
        else results) := by
  obtain ⟨new, added, -, fresh, -⟩ := enqueue_spec queue visited (next (current, depth))
  have unqueued := (List.nodup_cons.mp sweeping.queued).1
  have marked := sweeping.marked (current, depth) List.mem_cons_self
  rw [added]
  intro hash
  have taken : (∃ at_, (hash, at_) ∈ visited ++ new ∧ (hash, at_) ∉ queue ++ new
        ∧ Wanted start minHops maxHops hash at_)
      ↔ hash ∈ results ∨ (hash = current ∧ Wanted start minHops maxHops current depth) := by
    rw [collected hash]
    constructor
    · rintro ⟨at_, seen, waits, wanted⟩
      rw [List.mem_append, not_or] at waits
      have old : (hash, at_) ∈ visited := by
        rcases List.mem_append.mp seen with old | inNew
        · exact old
        · exact absurd inNew waits.2
      by_cases here : (hash, at_) = (current, depth)
      · cases here
        exact .inr ⟨rfl, wanted⟩
      · refine .inl ⟨at_, old, fun queued => ?_, wanted⟩
        rcases List.mem_cons.mp queued with same | later
        · exact here same
        · exact waits.1 later
    · rintro (⟨at_, seen, waits, wanted⟩ | ⟨rfl, wanted⟩)
      · refine ⟨at_, List.mem_append_left _ seen, ?_, wanted⟩
        rw [List.mem_append, not_or]
        exact ⟨fun queued => waits (List.mem_cons_of_mem _ queued), fun inNew => fresh _ inNew seen⟩
      · refine ⟨depth, List.mem_append_left _ marked, ?_, wanted⟩
        rw [List.mem_append, not_or]
        exact ⟨unqueued, fun inNew => fresh _ inNew marked⟩
  rw [taken]
  split
  · rename_i adds
    rw [List.mem_append, List.mem_singleton]
    exact or_congr_right ⟨fun same => ⟨same, adds.1, adds.2.1, adds.2.2.1⟩, fun ⟨same, _⟩ => same⟩
  · rename_i keeps
    constructor
    · exact .inl
    · rintro (inResults | ⟨rfl, least, most, other⟩)
      · exact inResults
      · by_contra absent
        exact keeps ⟨least, most, other, absent⟩

/-- A commit the store shows is loaded. -/
theorem lift_getCommit (readable : store.Readable) {commit : Commit}
    (held : store.view.commit hash = some commit)
    : ∃ next, lift (getCommit hash) store = .ok commit next ∧ Looks store next := by
  obtain ⟨next, loaded, looks⟩ := loadCommit_of_held readable held
  exact ⟨next, Run.mapErr_eq_ok.mpr loaded, looks⟩

/-- The commits one deeper are looked up and queued. -/
theorem expandLoop_below (readable : store.Readable) {toward : Bool}
    {children : AssocMap Hash (List Hash)} {start current : Hash} {minHops maxHops depth : Nat}
    (fuel : Nat) {queue visited : List (Hash × Nat)} {results : List Hash}
    (whole : toward = true → store.view.Whole current) (below : ¬ maxHops ≤ depth)
    : ∃ middle, Looks store middle
        ∧ expandLoop toward children start minHops maxHops (fuel + 1) ((current, depth) :: queue)
            visited results store
          = expandLoop toward children start minHops maxHops fuel
              (enqueue queue visited
                ((stepsOf store.view children toward current).map fun hash => (hash, depth + 1))).1
              (enqueue queue visited
                ((stepsOf store.view children toward current).map fun hash => (hash, depth + 1))).2
              (if minHops ≤ depth ∧ depth ≤ maxHops ∧ current ≠ start ∧ current ∉ results then
                results ++ [current]
              else results) middle := by
  rw [expandLoop, if_neg below, ← enqueue_eq]
  cases toward with
  | false =>
    rw [if_neg (by decide)]
    exact ⟨store, looks_frame.refl store, rfl⟩
  | true =>
    obtain ⟨commit, held⟩ := (whole rfl).commit
    obtain ⟨middle, loaded, looks⟩ := lift_getCommit readable held
    refine ⟨middle, looks, ?_⟩
    rw [if_pos rfl, Run.bind_of_ok loaded, stepsOf, if_pos rfl, View.parents_of_commit held]
    rfl

/-- Following an edge from whole histories is a walk over commits and depths. -/
theorem expandLoop_eq (readable : store.Readable) {toward : Bool}
    {children : AssocMap Hash (List Hash)} {start : Hash} {minHops maxHops : Nat} (fuel : Nat)
    {queue visited : List (Hash × Nat)} {results : List Hash}
    (whole : toward = true → ∀ node ∈ queue, store.view.Whole node.1)
    (sweeping : Sweeping
      (deeper (stepsOf store.view children toward) maxHops) queue visited)
    (collected : Collected start minHops maxHops queue visited results)
    : ∃ last, Looks store last
        ∧ match sweep (deeper (stepsOf store.view children toward) maxHops) fuel
            queue visited with
          | none => expandLoop toward children start minHops maxHops fuel queue visited results store
              = .error .fuel last
          | some found => ∃ final,
              expandLoop toward children start minHops maxHops fuel queue visited results store
                = .ok final last
              ∧ Collected start minHops maxHops [] found final := by
  induction fuel generalizing store queue visited results with
  | zero =>
    cases queue with
    | nil => exact ⟨store, looks_frame.refl store, results, rfl, collected⟩
    | cons node queue => exact ⟨store, looks_frame.refl store, rfl⟩
  | succ fuel ih =>
    cases queue with
    | nil => exact ⟨store, looks_frame.refl store, results, rfl, collected⟩
    | cons node queue =>
      obtain ⟨current, depth⟩ := node
      have further := collected.step sweeping
      have onward := sweeping.step.1
      have later := fun isToward node member => whole isToward node (List.mem_cons_of_mem _ member)
      rw [sweep]
      by_cases deepest : maxHops ≤ depth
      · have none : deeper (stepsOf store.view children toward) maxHops (current, depth)
            = [] := if_pos deepest
        rw [none] at further onward ⊢
        rw [expandLoop, if_pos deepest]
        exact ih readable later onward further
      · obtain ⟨middle, looks, found⟩ := @expandLoop_below _ store readable toward children start
          current minHops maxHops depth fuel queue visited results
          (fun isToward => whole isToward _ List.mem_cons_self) deepest
        have below : deeper (stepsOf store.view children toward) maxHops (current, depth)
            = (stepsOf store.view children toward current).map fun hash => (hash, depth + 1) :=
          if_neg deepest
        have view := looks.view readable
        rw [found]
        rw [below] at further onward ⊢
        have wholeNext : toward = true → ∀ node ∈ (enqueue queue visited
            ((stepsOf store.view children toward current).map fun hash => (hash, depth + 1))).1,
            middle.view.Whole node.1 := by
          intro isToward node member
          rw [view]
          obtain ⟨new, added, -, -, members⟩ := enqueue_spec queue visited
            ((stepsOf store.view children toward current).map fun hash => (hash, depth + 1))
          rw [added] at member
          rcases List.mem_append.mp member with old | inNew
          · exact later isToward node old
          · obtain ⟨hash, parent, rfl⟩ := List.mem_map.mp ((members node).mp inNew).1
            rw [stepsOf, if_pos isToward] at parent
            exact (whole isToward _ List.mem_cons_self).of_parent parent
        obtain ⟨last, looksOn, ran⟩ := ih (looks.readable readable) wholeNext
          (by rw [view]; exact onward) further
        rw [view] at ran
        exact ⟨last, looks_frame.trans looks looksOn, ran⟩

omit [Blake3] in
theorem collected_start (start : Hash) (minHops maxHops : Nat)
    : Collected start minHops maxHops [(start, 0)] [(start, 0)] [] := by
  intro hash
  constructor
  · intro member
    cases member
  · rintro ⟨depth, seen, waits, -⟩
    exact absurd seen waits

section Expanding

variable [HashSeed] {edge : EdgePattern} {start : Hash} {children : AssocMap Hash (List Hash)}
  {fuel : Nat}

def Leads (view : View) (children : AssocMap Hash (List Hash)) (edge : EdgePattern)
    : Nat → Hash → Hash → Prop :=
  Worklist.Steps (stepsOf view children (towardRoot edge.edgeType))

omit [HashSeed] in
theorem expandLoop_start (readable : store.Readable) {toward : Bool}
    (whole : toward = true → store.view.Whole start) (minHops maxHops : Nat)
    : ∃ last, Looks store last
        ∧ match sweep (deeper (stepsOf store.view children toward) maxHops) fuel
            [(start, 0)] [(start, 0)] with
          | none => expandLoop toward children start minHops maxHops fuel [(start, 0)] [(start, 0)] []
              store = .error .fuel last
          | some found => ∃ final,
              expandLoop toward children start minHops maxHops fuel [(start, 0)] [(start, 0)] [] store
                = .ok final last
              ∧ Collected start minHops maxHops [] found final :=
  expandLoop_eq readable fuel
    (fun isToward node member => by
      rw [List.mem_singleton.mp member]
      exact whole isToward)
    (sweeping_start (start, 0)) (collected_start start minHops maxHops)

variable {found : List Hash} {next : DiskStore}

/-- An edge leads to the other commits that a number of steps within its bounds leads to. -/
theorem mem_expandEdge (readable : store.Readable)
    (whole : towardRoot edge.edgeType = true → store.view.Whole start)
    (ran : expandEdge fuel edge start children store = .ok found next)
    : hash ∈ found
      ↔ hash ≠ start ∧ ∃ hops, (hopBounds edge.multiplier edge.edgeType).1 ≤ hops
          ∧ hops ≤ (hopBounds edge.multiplier edge.edgeType).2
          ∧ Leads store.view children edge hops start hash := by
  obtain ⟨results, middle, looped, ended⟩ := Run.bind_eq_ok.mp ran
  cases ended
  rw [(HashSeed.perm results).mem_iff]
  obtain ⟨last, -, outcome⟩ := @expandLoop_start _ store start children fuel readable
    (towardRoot edge.edgeType) whole (hopBounds edge.multiplier edge.edgeType).1
    (hopBounds edge.multiplier edge.edgeType).2
  cases swept : sweep (deeper (stepsOf store.view children
      (towardRoot edge.edgeType)) (hopBounds edge.multiplier edge.edgeType).2) fuel
      [(start, 0)] [(start, 0)] with
  | none =>
    rw [swept] at outcome
    cases looped.symm.trans outcome
  | some marked =>
    rw [swept] at outcome
    obtain ⟨final, looped', collected⟩ := outcome
    cases looped.symm.trans looped'
    have reached {depth : Nat} : (hash, depth) ∈ marked
        ↔ depth ≤ (hopBounds edge.multiplier edge.edgeType).2
          ∧ Leads store.view children edge depth start hash := by
      rw [mem_sweep swept (sweeping_start _), Leads,
        ← reaches_deeper_iff]
      simp only [List.mem_singleton, exists_eq_left, or_iff_right_iff_imp]
      rintro same
      cases same
      exact .refl
    rw [collected hash]
    simp only [reached, Wanted, List.not_mem_nil, not_false_eq_true, true_and]
    constructor
    · rintro ⟨depth, ⟨most, leads⟩, least, -, other⟩
      exact ⟨other, depth, least, most, leads⟩
    · rintro ⟨other, depth, least, most, leads⟩
      exact ⟨depth, ⟨most, leads⟩, least, most, other⟩

def hopBudget (store : DiskStore) (maxHops : Nat) : Nat := 1 + store.known.card * (maxHops + 1)

/-- Following an edge inside a finite part of the graph returns. -/
theorem expandEdge_returns_of (readable : store.Readable)
    (whole : towardRoot edge.edgeType = true → store.view.Whole start) {universe_ : Finset Hash}
    (inside : start ∈ universe_)
    (closed : ∀ hash ∈ universe_,
      ∀ other ∈ stepsOf store.view children (towardRoot edge.edgeType) hash, other ∈ universe_)
    (enough : 1 + universe_.card * ((hopBounds edge.multiplier edge.edgeType).2 + 1) ≤ fuel)
    : ∃ found next, expandEdge fuel edge start children store = .ok found next := by
  obtain ⟨marked, swept⟩ := sweep_deeper_returns inside closed enough
  obtain ⟨last, -, outcome⟩ := @expandLoop_start _ store start children fuel readable
    (towardRoot edge.edgeType) whole (hopBounds edge.multiplier edge.edgeType).1
    (hopBounds edge.multiplier edge.edgeType).2
  rw [swept] at outcome
  obtain ⟨final, looped, -⟩ := outcome
  exact ⟨HashSeed.order final, last, Run.bind_eq_ok.mpr ⟨final, last, looped, rfl⟩⟩

/-- Following an edge towards the root returns. -/
theorem expandEdge_returns (readable : store.Readable) (toward : towardRoot edge.edgeType = true)
    (whole : store.view.Whole start)
    (enough : hopBudget store (hopBounds edge.multiplier edge.edgeType).2 ≤ fuel)
    : ∃ found next, expandEdge fuel edge start children store = .ok found next := by
  obtain ⟨universe_, known, inside, closed⟩ := exists_known_ancestors whole
  have few := Nat.mul_le_mul_right ((hopBounds edge.multiplier edge.edgeType).2 + 1)
    (Finset.card_le_card known)
  refine expandEdge_returns_of readable (fun _ => whole) inside ?_
    (le_trans (Nat.add_le_add_left few 1) enough)
  rw [toward]
  exact closed

omit [HashSeed] in
/-- No commit is collected twice. -/
theorem nodup_expandLoop {toward : Bool} {minHops maxHops : Nat} {queue visited : List (Hash × Nat)}
    {results : List Hash}
    : results.Nodup
      → ∀ {store : DiskStore}, expandLoop toward children start minHops maxHops fuel queue visited
          results store = .ok found next
      → found.Nodup := by
  have more {results : List Hash} (distinct : results.Nodup) (current : Hash) (depth : Nat)
      : (if minHops ≤ depth ∧ depth ≤ maxHops ∧ current ≠ start ∧ current ∉ results then
          results ++ [current] else results).Nodup := by
    split
    · rename_i adds
      refine List.nodup_append.mpr ⟨distinct, List.nodup_singleton _, ?_⟩
      rintro other member _ new rfl
      exact adds.2.2.2 (List.mem_singleton.mp new ▸ member)
    · exact distinct
  fun_induction expandLoop toward children start minHops maxHops fuel queue visited results with
  | case1 =>
    rintro distinct store ⟨⟩
    exact distinct
  | case2 => rintro distinct store ⟨⟩
  | case3 fuel current depth queue visited earlier results beyond ih =>
    exact fun distinct _ => ih (more distinct current depth)
  | case4 fuel current depth =>
    rename_i ih
    intro distinct store ran
    obtain ⟨_, _, -, onward⟩ := Run.bind_eq_ok.mp ran
    exact ih _ _ (more distinct current depth) onward
  | case5 fuel current depth =>
    rename_i ih
    exact fun distinct _ => ih _ _ (more distinct current depth)

theorem nodup_expandEdge
    (ran : expandEdge fuel edge start children store = .ok found next)
    : found.Nodup := by
  obtain ⟨results, middle, looped, ended⟩ := Run.bind_eq_ok.mp ran
  cases ended
  exact (HashSeed.perm results).nodup_iff.mpr (nodup_expandLoop List.nodup_nil looped)

end Expanding

end Epochs.Ql.Engine
