import Epochs.Cli.Commit
import Epochs.Ql.Lineage
import Epochs.Ql.Matches
import Epochs.Store.Sessions

/-! The roots of a commit that changes nothing. The commit command without assignments keeps the data
root of HEAD's commit and drops the index roots; a commit statement without fields keeps up the
indexes of the schema. Both keep what HEAD's commit has exactly where there is nothing to index.
-/

namespace Epochs.Cli

open Lib DiskStore Ql.Engine

variable [Blake3] {store last : DiskStore} {hash : Hash} {branch : Branch} {parent : Commit}
  {middle : DiskStore} {fuel : Nat}

omit [Blake3] in
/-- Reading HEAD leaves the store. -/
theorem head_eq_ok {found : Option Branch} (read : head store = .ok found last) : last = store := by
  have kept := @head_within (fun before after => after = before)
    ⟨fun _ => rfl, fun first second => second.trans first⟩ store
  rwa [read] at kept

/-- A commit that was made is read from the cache once its branch is moved. -/
theorem getCommit_of_updateBranch {commit : Commit} {name : String}
    (cached : store.commitCache.get hash = some commit)
    (moved : updateBranch name hash store = .ok () last)
    : getCommit hash last = .ok commit last := by
  have kept : last.commitCache = store.commitCache := by
    have cache := onWorld_cache ((Repo.RefOp.update hash).run store.repo name) store
    rw [show onWorld _ store = _ from refOp_of_checked (updateBranch_eq name hash ▸ moved)] at cache
    exact cache
  rw [getCommit, loadCommit, Run.get_bind_apply]
  rw [kept, cached]
  rfl

omit [Blake3] in
/-- The zero root stands for the empty tree. -/
theorem getD_root (root : Hash) : (if root = Hash.zero then none else some root).getD Hash.zero = root := by
  split
  · rename_i zero
    exact zero.symm
  · rfl

/-- The commit that the command makes has the data root of the parent and no index roots. -/
theorem commitHead_eq_ok {message name : String} (read : head store = .ok (some branch) store)
    (loaded : getCommit branch.target store = .ok parent middle)
    (ran : commitHead fuel message store = .ok (hash, name) last)
    : ∃ now, getCommit hash last
        = .ok (Commit.new [branch.target] parent.rootHamt now message) last := by
  rw [commitHead, Run.bind_of_ok read] at ran
  dsimp only at ran
  rw [Run.bind_of_ok loaded] at ran
  obtain ⟨newHash, second, committed, ran⟩ := Run.bind_eq_ok.mp ran
  obtain ⟨_, third, moved, done⟩ := Run.bind_eq_ok.mp ran
  cases done
  rw [commit, applyOps, pure_bind, getD_root] at committed
  obtain ⟨_, checked, parents, made⟩ := Run.bind_eq_ok.mp committed
  obtain ⟨now, ticked, clock, made⟩ := Run.bind_eq_ok.mp made
  exact ⟨now, getCommit_of_updateBranch (cached_of_persistCommit made) moved⟩

theorem cmdCommit_eq_ok [HashSeed] {message : Option String} {name : String}
    : cmdCommit fuel message [] store = .ok (.committed hash name) last
      ↔ commitHead fuel (message.getD "commit") store = .ok (hash, name) last := by
  rw [cmdCommit, if_pos rfl]
  constructor
  · intro ran
    obtain ⟨_, _, made, ended⟩ := Run.bind_eq_ok.mp ran
    cases ended
    exact Run.mapErr_eq_ok.mp made
  · intro made
    rw [Run.bind_of_ok (Run.mapErr_eq_ok.mpr made)]
    rfl

-- A commit statement without fields

theorem docOf_follows (fuel : Nat) (root : Hash)
    : Run.Follows Alike (docOf fuel root) (docOf fuel root) := by
  unfold docOf
  split
  · exact .pure _
  · exact .mapErr (.bind (hamtEntries_follows fuel root) fun _ => .pure _) _

theorem textual_of_docOf {root : Hash} {doc : Ql.Doc}
    (ran : docOf fuel root store = .ok doc last)
    : Ql.Textual doc := by
  unfold docOf at ran
  split at ran
  · cases ran
    intro key value found
    cases found
  · obtain ⟨entries, next, -, ended⟩ := Run.bind_eq_ok.mp (Run.mapErr_eq_ok.mp ran)
    cases ended
    exact Ql.textual_flattenEntries entries

omit [Blake3] in
theorem branchAt_of_head (read : head store = .ok (some branch) store)
    : store.repo.head = some branch.name
      ∧ store.repo.branchAt store.world.fs branch.name = .ok branch := by
  have lifted : lift head store = .ok (some branch) store := Run.mapErr_eq_ok.mpr read
  have found : headBranch store = .ok branch store := by
    rw [headBranch, Run.bind_of_ok lifted]
    rfl
  exact (headBranch_eq_ok found).2

/-- The commit that the statement makes has the data root of the parent, and the index roots over
those of the parent of a document that stays.
-/
theorem execCommit_empty (settled : store.Settled) (coherent : store.Coherent)
    (read : head store = .ok (some branch) store)
    (loaded : getCommit branch.target store = .ok parent middle) {message : Option String}
    {result : Ql.MutationResult}
    (ran : execCommit fuel { payload := [], message, parents := none } store = .ok result last)
    : ∃ newHash made schema doc viewed reviewed indexed,
        result.hash = some newHash.toHex ∧ getCommit newHash last = .ok made last
        ∧ Ql.schemaOf store = .ok schema ∧ docOf fuel parent.rootHamt store = .ok doc viewed
        ∧ made.rootHamt = parent.rootHamt
        ∧ Ql.updateIndexesForCommit fuel schema doc doc parent.indexRoots reviewed
          = .ok made.indexRoots indexed := by
  obtain ⟨⟨head', newHash⟩, written, objects, ran⟩ := Run.bind_eq_ok.mp ran
  obtain ⟨_, _, moved, ended⟩ := Run.bind_eq_ok.mp ran
  cases ended
  have moved := Run.mapErr_eq_ok.mp moved
  obtain @⟨parents, first, newRoot, base, ops, schema, oldDoc, newDoc, indexRoots, loaded', applied,
    viewed, reviewed, indexed, current, readAt, resolved, foremost, load, payload, apply, known, old,
    new, index, calls, further, write⟩ := commitObjects_eq_ok objects
  -- the branch of HEAD is read alike by both
  have same : head' = branch := by
    obtain ⟨current', readAt'⟩ := branchAt_of_head read
    rw [current] at current'
    rw [← Option.some.inj current', readAt] at readAt'
    exact Except.ok.inj readAt'
  subst same
  cases resolved
  cases foremost
  cases payload
  cases (show loadCommit head'.target store = _ from loaded).symm.trans load
  rw [applyHamtOps, applyOps, pure_bind, getD_root] at apply
  cases apply
  have readable : store.Readable := ⟨settled.sane, coherent⟩
  have looks := (loadCommit_looks head'.target).of_ok loaded
  have alike := looks.alike readable
  have trees := hamtEntries_looks fuel
  have looked := (docOf_within looks_frame trees parent.rootHamt).of_ok old
  obtain ⟨next, again, -⟩ := docOf_follows fuel parent.rootHamt _ _ _ _
    (looked.alike alike.still) old
  cases again.symm.trans new
  obtain ⟨seen, atStore, -⟩ := docOf_follows fuel parent.rootHamt _ _ _ _ alike.symm old
  obtain ⟨_, checked, -, made⟩ := Run.bind_eq_ok.mp write
  obtain ⟨now, ticked, -, made⟩ := Run.bind_eq_ok.mp made
  have schemaKnown := (Ql.schemaOf_of_settled settled looks.calls.toServes
    (settled.looks looks)).symm.trans known
  exact ⟨newHash, _, schema, oldDoc, seen, reviewed, indexed, rfl,
    getCommit_of_updateBranch (cached_of_persistCommit made) moved, schemaKnown, atStore, rfl, index⟩

/-- A commit by the command without assignments and one by a statement without fields both have the
roots of HEAD's commit exactly if this has no index roots, and its document no entry in any index
of the schema.
-/
theorem commit_keeps_roots_iff [HashSeed] (settled : store.Settled) (coherent : store.Coherent)
    (read : head store = .ok (some branch) store)
    (loaded : getCommit branch.target store = .ok parent middle) {message text : Option String}
    {name : String} (ran : cmdCommit fuel message [] store = .ok (.committed hash name) last)
    {budget : Nat} {result : Ql.MutationResult} {after : DiskStore}
    (executed : execCommit budget { payload := [], message := text, parents := none } store
      = .ok result after)
    : ∃ made otherHash other schema doc viewed, getCommit hash last = .ok made last
        ∧ result.hash = some otherHash.toHex ∧ getCommit otherHash after = .ok other after
        ∧ Ql.schemaOf store = .ok schema ∧ docOf budget parent.rootHamt store = .ok doc viewed
        ∧ ((made.rootHamt = parent.rootHamt ∧ made.indexRoots = parent.indexRoots)
            ∧ other.rootHamt = parent.rootHamt ∧ other.indexRoots = parent.indexRoots
          ↔ parent.indexRoots = SortedMap.empty
            ∧ ∀ coll ∈ schema.collections.values, ∀ index ∈ coll.indexes,
              ¬ Ql.Applies doc coll index) := by
  obtain ⟨now, reads⟩ := commitHead_eq_ok read loaded (cmdCommit_eq_ok.mp ran)
  obtain ⟨otherHash, other, schema, doc, viewed, reviewed, indexed, named, readsOther, known, seen,
    root, index⟩ := execCommit_empty settled coherent read loaded executed
  refine ⟨_, otherHash, other, schema, doc, viewed, reads, named, readsOther, known, seen, ?_⟩
  have textual := textual_of_docOf seen
  constructor
  · rintro ⟨⟨-, none⟩, -, kept⟩
    have none : parent.indexRoots = SortedMap.empty := none.symm
    rw [none] at index kept
    exact ⟨none, (Ql.updateIndexesForCommit_same textual index).mp kept⟩
  · rintro ⟨none, outside⟩
    rw [none] at index ⊢
    exact ⟨⟨rfl, rfl⟩, root, (Ql.updateIndexesForCommit_same textual index).mpr outside⟩

def headRoots (store : DiskStore) : Option (Hash × List (String × Hash)) :=
  (Run.valueOf ((do
    match ← head with
    | some branch => do
      let found ← getCommit branch.target
      pure (some (found.rootHamt, found.indexRoots.entries))
    | none => pure none) store)).join

theorem headRoots_eq_some {root : Hash} {entries : List (String × Hash)}
    (seen : headRoots store = some (root, entries))
    : ∃ branch parent middle, head store = .ok (some branch) store
        ∧ getCommit branch.target store = .ok parent middle
        ∧ parent.rootHamt = root ∧ parent.indexRoots.entries = entries := by
  have value := Option.join_eq_some_iff.mp seen
  obtain ⟨found, next, read, ran⟩ := Run.bind_eq_ok.mp (Run.eq_ok_of_valueOf value)
  obtain rfl := head_eq_ok read
  cases found with
  | none => cases ran
  | some branch =>
    obtain ⟨parent, middle, loaded, ended⟩ := Run.bind_eq_ok.mp ran
    cases ended
    exact ⟨branch, parent, _, read, loaded, rfl, rfl⟩

end Epochs.Cli

namespace Epochs.Cli

open Lib DiskStore Ql.Engine

attribute [local instance] Blake3.linked insertionOrder

/-- A document is committed, and then an index made on a field that it does not have. -/
def documented : DiskStore :=
  (Call.statement (.version (.commit
    { payload := [("id", .string "a")], message := none, parents := none }))).after 8 sample

def described : DiskStore :=
  Run.stateOf (onWorld (World.writeFile ["r", "schema.state"]
    (Utf8.encode "COLLECTION items\nKEY id STRING\nINDEX items.by_tag PATH tag TYPE STRING\n"))
    documented)

theorem orderly_documented : documented.Orderly := by
  have schema : Ql.schemaOf sample = .ok Ql.SchemaRegistry.new := by decide +kernel
  have handed : Traced.Roomy documented.cas.handed ∧ Traced.Unmixed documented.cas.handed := by
    decide +kernel
  unfold documented at handed ⊢
  refine orderly_after (housed_of_fresh fresh_sample (by decide) (by decide +kernel)) orderly_sample 8
    ⟨by decide +kernel, fun found read => ?_, fun targets given => by cases given⟩ handed.1 handed.2
  cases schema.symm.trans read
  exact ⟨by decide, by decide⟩

/-- Writing the file of the schema leaves the objects. -/
theorem turns_described : Turns documented described := by
  have settled := orderly_documented.settled
  obtain ⟨home, place, wrote⟩ : documented.repo.path = ["r"]
      ∧ World.resolve documented.world.fs ["r", "schema.state"] = .ok ["r", "schema.state"]
      ∧ (Run.valueOf (World.writeFile ["r", "schema.state"]
          (Utf8.encode "COLLECTION items\nKEY id STRING\nINDEX items.by_tag PATH tag TYPE STRING\n")
          documented.world)).isSome = true := by
    decide +kernel
  obtain ⟨_, world, wrote⟩ := Run.exists_eq_ok wrote
  obtain ⟨path, resolved, alters, lives, -⟩ := (World.writeFile_meets _ _ _).of_ok wrote
  cases place.symm.trans resolved
  have same : described = documented.setWorld world := by
    rw [described, onWorld, Run.zoom, wrote]
    rfl
  rw [same]
  refine settled.turns_of_alters (home ▸ Ql.SchemaRegistry.aside_statePath ["r"]) alters lives ?_
  intro parts bytes held
  rw [alters.fileAt settled.formed (by simp [Repo.heads, home])] at held
  exact settled.tidy parts bytes held

/-- HEAD's commit has a document, and no entry in the index. -/
theorem commit_keeps_roots_described
    : ∃ branch parent middle hash last result after made otherHash other,
        head described = .ok (some branch) described
        ∧ getCommit branch.target described = .ok parent middle ∧ parent.rootHamt ≠ Hash.zero
        ∧ cmdCommit 8 none [] described = .ok (.committed hash "main") last
        ∧ execCommit 8 { payload := [], message := none, parents := none } described
          = .ok result after
        ∧ getCommit hash last = .ok made last ∧ result.hash = some otherHash.toHex
        ∧ getCommit otherHash after = .ok other after
        ∧ (made.rootHamt = parent.rootHamt ∧ made.indexRoots = parent.indexRoots)
        ∧ other.rootHamt = parent.rootHamt ∧ other.indexRoots = parent.indexRoots := by
  have turns := turns_described
  obtain ⟨⟨⟨root, entries⟩, roots, filled, bare⟩, returned, stated, outside⟩ :
      (∃ roots ∈ headRoots described, roots.1 ≠ Hash.zero ∧ roots.2 = [])
      ∧ (Run.valueOf (commitHead 8 "commit" described)).map Prod.snd = some "main"
      ∧ (Run.valueOf (execCommit 8
          { payload := [], message := none, parents := none } described)).isSome = true
      ∧ ∀ roots ∈ headRoots described, ∀ doc ∈ Run.valueOf (docOf 8 roots.1 described),
        (Ql.schemaOf described).toOption.any (fun schema => schema.collections.values.all fun coll =>
          coll.indexes.all fun index => (Ql.extractPath doc index.path).isNone) := by
    decide +kernel
  obtain ⟨branch, parent, middle, read, loaded, rfl, rfl⟩ := headRoots_eq_some roots
  obtain ⟨⟨hash, name⟩, committed, rfl⟩ := Option.map_eq_some_iff.mp returned
  have ran : cmdCommit 8 none [] described = .ok (.committed hash "main") _ :=
    cmdCommit_eq_ok.mpr (Run.eq_ok_of_valueOf committed)
  obtain ⟨result, after, executed⟩ := Run.exists_eq_ok stated
  obtain ⟨made, otherHash, other, schema, doc, viewed, reads, named, readsOther, known, shown, kept⟩ :=
    commit_keeps_roots_iff turns.settled (turns.coherent orderly_documented.coherent) read loaded ran
      executed
  have none_ : parent.indexRoots = SortedMap.empty := by
    cases same : parent.indexRoots
    rw [same] at bare
    subst bare
    rfl
  have apart := outside _ roots doc (by rw [shown]; rfl)
  rw [known] at apart
  have apart : ∀ coll ∈ schema.collections.values, ∀ index ∈ coll.indexes,
      ¬ Ql.Applies doc coll index := by
    intro coll member index listed applies
    have missing := List.all_eq_true.mp (List.all_eq_true.mp apart coll member) index listed
    exact absurd applies.2 (by simp [Option.isNone_iff_eq_none.mp missing])
  exact ⟨branch, parent, middle, hash, _, result, after, made, otherHash, other, read, loaded, filled,
    ran, executed, reads, named, readsOther, kept.mpr ⟨none_, apart⟩⟩

/-- A collection with an index, and a document in it. -/
def indexed : DiskStore :=
  let described := Run.stateOf (onWorld (World.writeFile ["r", "schema.state"]
    (Utf8.encode "COLLECTION items\nKEY id STRING\nINDEX items.by_id PATH id TYPE STRING\n")) sample)
  Run.stateOf (Ql.Engine.execute 8 "COMMIT \x7b id: \"a\" \x7d;" described)

/-- HEAD's commit has an index root, and the command makes one with the same data root and no index
roots.
-/
theorem commit_drops_index_roots
    : (headRoots indexed).map (fun roots => roots.2.length) = some 1
      ∧ headRoots (Run.stateOf (cmdCommit 8 none [] indexed))
        = (headRoots indexed).map fun roots => (roots.1, []) := by
  decide +kernel

end Epochs.Cli
