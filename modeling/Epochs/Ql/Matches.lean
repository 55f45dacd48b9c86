import Epochs.Ql.Edges
import Epochs.Ql.Steps

/-! Matching reads commits and their documents and changes neither, so a pattern has the same rows
from every state that shows the same objects. What the rows are is said here in terms of the
commits and documents that are shown.
-/

namespace Epochs

open Lib Run

namespace DiskStore

variable [Blake3] {store other : DiskStore}

/-- Two stores that can be read and show the same objects. -/
structure Alike (store other : DiskStore) : Prop where
  readable : store.Readable
  still : other.Readable
  view : other.view = store.view

theorem Alike.refl (readable : store.Readable) : Alike store store := ⟨readable, readable, rfl⟩

theorem Alike.after (alike : Alike store other) {next : DiskStore} (looks : Looks other next)
    : Alike store next where
  readable := alike.readable
  still := looks.readable alike.still
  view := (looks.view alike.still).trans alike.view

theorem Alike.looks (alike : Alike store other) {first second : DiskStore}
    (looks : Looks store first) (looks' : Looks other second)
    : Alike first second where
  readable := looks.readable alike.readable
  still := looks'.readable alike.still
  view := by rw [looks.view alike.readable, looks'.view alike.still, alike.view]

theorem Looks.alike (looks : Looks store other) (readable : store.Readable) : Alike store other :=
  ⟨readable, looks.readable readable, looks.view readable⟩

theorem Alike.symm (alike : Alike store other) : Alike other store :=
  ⟨alike.still, alike.readable, alike.view.symm⟩

/-- A run that changes no object and whose value is the same in stores that show the same. -/
theorem follows_of_looks {ε α : Type} {run : Run ε DiskStore α} (looks : Within Looks run)
    (same : ∀ {store other value last}, Alike store other → run store = .ok value last
      → ∃ next, run other = .ok value next)
    : Follows Alike run run := by
  intro store other value last alike ran
  obtain ⟨next, ran'⟩ := same alike ran
  exact ⟨next, ran', alike.looks (looks.of_ok ran) (looks.of_ok ran')⟩

theorem loadCommit_follows (hash : Hash) : Follows Alike (loadCommit hash) (loadCommit hash) :=
  follows_of_looks (loadCommit_looks hash) fun alike loaded => by
    have held := loadCommit_eq_ok alike.readable loaded
    rw [← alike.view] at held
    obtain ⟨next, loaded', -⟩ := loadCommit_of_held alike.still held
    exact ⟨next, loaded'⟩

theorem hamtEntries_follows (fuel : Nat) (root : Hash)
    : Follows Alike (hamtEntries fuel root) (hamtEntries fuel root) := by
  refine follows_of_looks (hamtEntries_looks fuel root) fun {store other entries last} alike read => ?_
  unfold hamtEntries at read ⊢
  split at read
  · rename_i empty
    cases read
    exact ⟨other, by rw [if_pos empty]; rfl⟩
  · rename_i present
    rw [if_neg present]
    have sees : PersistentHamt.Sees store.cas other.cas :=
      ⟨alike.readable.sane.valid, alike.still.sane.valid, by
        rw [show other.cas.view = store.cas.view from alike.view]
        exact View.Extends.refl _⟩
    obtain ⟨traced, ran, -⟩ := zoom_eq_ok.mp read
    obtain ⟨next, ran', -⟩ := PersistentHamt.entries_kept (.follows _)
      PersistentHamt.getRecord_follows fuel (some root) _ _ _ _ sees ran
    exact ⟨_, zoom_eq_ok.mpr ⟨next, ran', rfl⟩⟩

end DiskStore

namespace Ql.Engine

open DiskStore

variable [Blake3]

-- The same from stores that show the same

variable (fuel : Nat)

theorem expandEdge_follows [HashSeed] (edge : EdgePattern) (start : Hash)
    (children : AssocMap Hash (List Hash))
    : Follows Alike (expandEdge fuel edge start children) (expandEdge fuel edge start children) :=
  expandEdge_kept (.follows _) loadCommit_follows edge start

def readBound (hash : Hash) : Exec BoundCommit := do
  let commit ← lift (getCommit hash)
  bindCommit fuel hash commit

/-- A commit with its document, as a store shows it. -/
def shownAt (store : DiskStore) (hash : Hash) : Option BoundCommit :=
  Run.valueOf (readBound fuel hash store)

def fits (node : NodePattern) (bound : BoundCommit) : Bool :=
  match matchesProperties bound node.properties with
  | .ok truth => truth
  | .error _ => false

def fitting (store : DiskStore) (node : NodePattern) (hash : Hash) : Option BoundCommit :=
  (shownAt fuel store hash).filter (fits node)

variable {fuel} {store now last : DiskStore} {hash : Hash}

theorem readBound_follows
    : Follows Alike (readBound fuel hash) (readBound fuel hash) :=
  .bind (getCommit_kept (.follows _) loadCommit_follows hash) fun commit =>
    bindCommit_kept (.follows _) (hamtEntries_follows fuel) hash commit

theorem shownAt_alike (alike : Alike store now) : shownAt fuel now hash = shownAt fuel store hash := by
  unfold shownAt
  cases read : readBound fuel hash now with
  | ok bound next =>
    obtain ⟨next', read', -⟩ := readBound_follows _ _ _ _ alike.symm read
    rw [read']
    rfl
  | error fault next =>
    cases read' : readBound fuel hash store with
    | ok bound next' =>
      obtain ⟨_, again, -⟩ := readBound_follows _ _ _ _ alike read'
      cases read.symm.trans again
    | error fault' next' => rfl

theorem hash_of_shownAt {bound : BoundCommit} (shown : shownAt fuel store hash = some bound)
    : bound.hash = hash := by
  have read := eq_ok_of_valueOf shown
  obtain ⟨commit, middle, -, bind⟩ := bind_eq_ok.mp read
  obtain ⟨entries, middle', -, ended⟩ := bind_eq_ok.mp bind
  cases ended
  rfl

variable {node : NodePattern}

theorem hash_of_fitting {bound : BoundCommit}
    (fit : fitting fuel store node hash = some bound)
    : bound.hash = hash :=
  hash_of_shownAt (Option.filter_eq_some_iff.mp fit).1

/-- What trying to bind a node to a commit returns. -/
theorem tryBindNode_eq_ok (alike : Alike store now) {commit : Commit}
    {middle : DiskStore} {result : Option BoundCommit}
    (loaded : lift (getCommit hash) now = .ok commit middle)
    (tried : tryBindNode fuel node hash commit middle = .ok result last)
    : result = fitting fuel store node hash ∧ (shownAt fuel store hash).isSome ∧ Alike store last := by
  obtain ⟨bound, second, bind, tested⟩ := bind_eq_ok.mp tried
  obtain ⟨truth, third, held, ended⟩ := bind_eq_ok.mp tested
  have read : readBound fuel hash now = .ok bound second := bind_eq_ok.mpr ⟨_, _, loaded, bind⟩
  have shown : shownAt fuel store hash = some bound := by
    rw [← shownAt_alike alike, shownAt, read]
    rfl
  have looked : Looks now second := by
    have looks : Within Looks (readBound fuel hash) :=
      .bind looks_frame (getCommit_kept (.within looks_frame) loadCommit_looks hash) fun commit =>
        bindCommit_kept (.within looks_frame) (hamtEntries_looks fuel) hash commit
    exact looks.of_ok read
  cases tests : matchesProperties bound node.properties with
  | error error =>
    rw [tests] at held
    cases held
  | ok fit =>
    rw [tests] at held
    cases held
    have same : result = fitting fuel store node hash ∧ last = second := by
      rw [fitting, shown]
      cases truth with
      | true =>
        cases ended
        exact ⟨by simp [Option.filter, fits, tests], rfl⟩
      | false =>
        cases ended
        exact ⟨by simp [Option.filter, fits, tests], rfl⟩
    refine ⟨same.1, by rw [shown]; rfl, ?_⟩
    rw [same.2]
    exact alike.after looked

-- The rows of a pattern

variable {rows result : List Bindings}

/-- A row is added for every commit that fits and makes one. -/
theorem bindRows_eq_ok (alike : Alike store now) {grow : BoundCommit → Option Bindings}
    {commits : List Hash} (ran : bindRows fuel node grow commits rows now = .ok result last)
    : result = rows ++ commits.filterMap (fun hash => (fitting fuel store node hash).bind grow)
      ∧ Alike store last ∧ ∀ hash ∈ commits, (shownAt fuel store hash).isSome := by
  induction commits generalizing rows now with
  | nil =>
    cases ran
    exact ⟨by simp, alike, by simp⟩
  | cons hash rest ih =>
    obtain ⟨commit, middle, loaded, onward⟩ := bind_eq_ok.mp ran
    obtain ⟨bound, next, tried, further⟩ := bind_eq_ok.mp onward
    obtain ⟨same, shown, still⟩ := tryBindNode_eq_ok alike loaded tried
    obtain ⟨found, ended, others⟩ := ih still further
    refine ⟨?_, ended, List.forall_mem_cons.mpr ⟨shown, others⟩⟩
    rw [found, List.filterMap_cons, ← same]
    cases bound.bind grow <;> simp

variable {var : String}

def extensions [HashSeed] (fuel : Nat) (store : DiskStore) (edge : EdgePattern)
    (node : NodePattern) (prevVar var : String) (children : AssocMap Hash (List Hash))
    (row : Bindings) : List Bindings :=
  match AssocMap.lookup prevVar row with
  | none => []
  | some src =>
    ((Run.valueOf (expandEdge fuel edge src.hash children store)).getD []).filterMap fun hash =>
      (fitting fuel store node hash).bind (agreeing var row)

variable {children : AssocMap Hash (List Hash)}

theorem extensions_eq [HashSeed] {edge : EdgePattern} {prevVar : String}
    {row : Bindings} {src : BoundCommit} {found : List Hash}
    (held : AssocMap.lookup prevVar row = some src)
    (expanded : expandEdge fuel edge src.hash children store = .ok found last)
    : extensions fuel store edge node prevVar var children row
      = found.filterMap fun hash => (fitting fuel store node hash).bind (agreeing var row) := by
  simp only [extensions, held, expanded, valueOf, Option.getD_some]

/-- Each row is extended along an edge. -/
theorem extendRows_eq_ok [HashSeed] (alike : Alike store now) {edge : EdgePattern}
    {prevVar : String}
    {next : List Bindings}
    (ran : extendRows fuel edge node prevVar var children rows next now = .ok result last)
    : result = next ++ rows.flatMap (extensions fuel store edge node prevVar var children)
      ∧ Alike store last
      ∧ ∀ row ∈ rows, ∃ src found state, AssocMap.lookup prevVar row = some src
          ∧ expandEdge fuel edge src.hash children store = .ok found state
          ∧ ∀ hash ∈ found, (shownAt fuel store hash).isSome := by
  induction rows generalizing next now with
  | nil =>
    cases ran
    exact ⟨by simp, alike, by simp⟩
  | cons row rest ih =>
    rw [extendRows] at ran
    cases held : AssocMap.lookup prevVar row with
    | none =>
      rw [held] at ran
      cases ran
    | some src =>
      rw [held] at ran
      obtain ⟨found, middle, expanded, onward⟩ := bind_eq_ok.mp ran
      obtain ⟨more, second, bound, further⟩ := bind_eq_ok.mp onward
      obtain ⟨state, expanded', -⟩ := expandEdge_follows _ _ _ _ _ _ _ _ alike.symm expanded
      have looked := (expandEdge_kept (.within looks_frame) loadCommit_looks edge src.hash).of_ok
        expanded
      rw [bindCandidates_eq] at bound
      obtain ⟨extended, still, shown⟩ := bindRows_eq_ok (alike.after looked) bound
      obtain ⟨all, ended, others⟩ := ih still further
      refine ⟨?_, ended, List.forall_mem_cons.mpr
        ⟨⟨src, found, state, held, expanded', shown⟩, others⟩⟩
      rw [all, extended, List.flatMap_cons, extensions_eq held expanded', List.append_assoc]

-- One edge between two nodes

def hashAt (row : Bindings) (var : String) : Option Hash :=
  (AssocMap.lookup var row).map BoundCommit.hash

def namedNode (var : String) : NodePattern := { var := some var, label := none, properties := [] }

def edgePattern (first second : String) (edge : EdgePattern) : Pattern :=
  ⟨[.node (namedNode first), .edge edge, .node (namedNode second)]⟩

def Matched (rows : List Bindings) (first second : String) (a b : Hash) : Prop :=
  ∃ row ∈ rows, hashAt row first = some a ∧ hashAt row second = some b

omit [Blake3] in
theorem mem_unionHashes {first second : List Hash} {hash : Hash}
    : hash ∈ unionHashes first second ↔ hash ∈ first ∨ hash ∈ second := by
  unfold unionHashes
  induction second generalizing first with
  | nil => simp
  | cons other rest ih =>
    rw [List.foldl_cons, ih]
    split
    · rename_i known
      rw [List.mem_cons]
      constructor
      · rintro (old | later)
        · exact .inl old
        · exact .inr (.inr later)
      · rintro (old | rfl | later)
        · exact .inl old
        · exact .inl known
        · exact .inr later
    · rw [List.mem_append, List.mem_singleton, List.mem_cons, or_assoc]

-- A clause

/-- The commits and the children that the patterns of a clause are matched with. -/
theorem execMatch_eq_ok [HashSeed] {clause : MatchClause} {context : Hash}
    (ran : execMatch fuel clause context store = .ok rows last)
    : ∃ ancestors reachable children first second now,
        collectAncestors fuel context store = .ok ancestors first ∧ Looks store first
        ∧ reachableCommits fuel first = .ok reachable second ∧ Looks first second
        ∧ childrenMap fuel second = .ok children now ∧ Looks second now
        ∧ matchPatterns fuel (unionHashes ancestors (HashSeed.order reachable)) children
            clause.patterns [] now = .ok rows last := by
  obtain ⟨ancestors, first, collected, onward⟩ := bind_eq_ok.mp ran
  obtain ⟨reachable, second, walked, further⟩ := bind_eq_ok.mp onward
  obtain ⟨children, now, mapped, matched⟩ := bind_eq_ok.mp further
  have collected := mapErr_eq_ok.mp collected
  have walked := mapErr_eq_ok.mp walked
  have mapped := mapErr_eq_ok.mp mapped
  exact ⟨ancestors, reachable, children, first, second, now,
    collected, (collectAncestors_within looks_frame loadCommit_looks fuel context).of_ok collected,
    walked, (reachableCommits_within looks_frame loadCommit_looks fuel).of_ok walked,
    mapped, (childrenMap_within looks_frame loadCommit_looks fuel).of_ok mapped, matched⟩

theorem matchPatterns_single [HashSeed] {commits : List Hash}
    {pattern : Pattern}
    (ran : matchPatterns fuel commits children [pattern] [] now = .ok rows last)
    : matchPattern fuel pattern commits children now = .ok rows last := by
  obtain ⟨found, middle, matched, ended⟩ := bind_eq_ok.mp ran
  cases ended
  exact matched

end Ql.Engine
end Epochs
