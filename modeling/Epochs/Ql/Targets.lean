import Epochs.Ql.Engine
import Epochs.Store.Start

/-! The objects that a prefix of a hash stands for. The index does not know of which type an object is,
so other objects get in the way of the commits.
-/

namespace Epochs

open Lib

/-- Two nested sets are singletons together, unless the larger one has more members than the smaller
one and the count of one of them is one.
-/
theorem eq_singleton_iff_of_subset {α : Type} {inner outer : Set α} (subset : inner ⊆ outer)
    : (∀ value, outer = {value} ↔ inner = {value})
      ↔ outer ⊆ inner ∨ inner.Nontrivial ∨ (inner = ∅ ∧ outer.Nontrivial) := by
  constructor
  · intro same
    by_cases full : outer ⊆ inner
    · exact .inl full
    obtain ⟨extra, inOuter, notInner⟩ := Set.not_subset.mp full
    by_cases several : inner.Nontrivial
    · exact .inr (.inl several)
    rcases (Set.not_nontrivial_iff.mp several).eq_empty_or_singleton with empty | ⟨value, single⟩
    · refine .inr (.inr ⟨empty, ?_⟩)
      by_contra few
      have single := (Set.not_nontrivial_iff.mp few).eq_singleton_of_mem inOuter
      rw [(same extra).mp single] at empty
      exact absurd empty (Set.singleton_ne_empty extra)
    · have outerSingle := (same value).mpr single
      rw [outerSingle, ← single] at inOuter
      exact absurd inOuter notInner
  · rintro (full | several | ⟨empty, several⟩) value
    · rw [subset.antisymm full]
    · constructor
      · intro single
        exact absurd (single ▸ several.mono subset) Set.not_nontrivial_singleton
      · intro single
        exact absurd (single ▸ several) Set.not_nontrivial_singleton
    · constructor
      · intro single
        exact absurd (single ▸ several) Set.not_nontrivial_singleton
      · intro single
        rw [empty] at single
        exact absurd single.symm (Set.singleton_ne_empty value)

/-- The lower-case text of the hash starts with the lower-case form of a text. -/
def Hash.StartsWith (hash : Hash) (start : String) : Prop :=
  start.toList.map Char.toLower <+: hash.toHex.toList

namespace Index

theorem nodup_keys_replay (log : List (Hash × IndexEntry)) {entries : AssocMap Hash IndexEntry}
    (distinct : (AssocMap.keys entries).Nodup)
    : (AssocMap.keys (replay log entries)).Nodup := by
  induction log generalizing entries with
  | nil => exact distinct
  | cons pair log ih => exact ih (AssocMap.nodup_insert distinct pair.1 pair.2)

theorem mem_findByPrefix {index : Index} {start : String} {hash : Hash}
    : hash ∈ index.findByPrefix start ↔ index.contains hash ∧ hash.StartsWith start := by
  rw [findByPrefix, List.mem_filter, List.isPrefixOf_iff_prefix, contains, AssocMap.contains,
    AssocMap.lookup_isSome]
  rfl

end Index

/-- The index of a store lists no hash twice. -/
theorem CasDisk.Clean.distinct [Blake3] {disk : CasDisk} (clean : disk.Clean)
    : disk.cas.index.hashes.Nodup := by
  obtain ⟨log, -, entries, -⟩ := clean.log
  rw [Index.hashes, entries]
  exact Index.nodup_keys_replay log List.nodup_nil

/-- A list without duplicates has one member if it is that list. -/
theorem eq_singleton_iff_of_nodup {α : Type} {list : List α} (distinct : list.Nodup) (value : α)
    : list = [value] ↔ {member | member ∈ list} = {value} := by
  constructor
  · rintro rfl
    ext member
    simp
  · intro same
    have only (member : α) : member ∈ list ↔ member = value := by
      rw [← Set.mem_singleton_iff, ← same]
      rfl
    exact List.perm_singleton.mp ((List.perm_ext_iff_of_nodup distinct (List.nodup_singleton value)).mpr
      fun member => by rw [only, List.mem_singleton])

namespace DiskStore

variable [Blake3] (store : DiskStore) (start : String)

def matchingObjects : Set Hash :=
  {hash | store.cas.store.cas.index.contains hash ∧ hash.StartsWith start}

def matchingCommits : Set Hash :=
  {hash | (∃ payload, store.view hash = some (.commit, payload)) ∧ hash.StartsWith start}

theorem matchingCommits_subset : store.matchingCommits start ⊆ store.matchingObjects start := by
  rintro hash ⟨⟨payload, held⟩, starts⟩
  obtain ⟨entry, found, -⟩ := Option.bind_eq_some_iff.mp held
  refine ⟨?_, starts⟩
  rw [Index.contains, AssocMap.contains]
  exact Option.isSome_of_eq_some found

variable {store start}

omit [Blake3] in
theorem resolveHashRef_eq_ok (partial_ : Text.len start ≠ 64) {hash : Hash} {after : DiskStore}
    : resolveHashRef start store = .ok hash after
      ↔ store.cas.store.cas.index.findByPrefix start = [hash] ∧ after = store := by
  rw [resolveHashRef, if_neg partial_, Run.get_bind_apply]
  generalize store.cas.store.cas.index.findByPrefix start = found
  rcases found with - | ⟨first, - | ⟨second, rest⟩⟩
  · simp
  · simp [eq_comm]
  · simp

end DiskStore

namespace Ql.Engine

variable [Blake3] {store : DiskStore} {start : String}

/-- A prefix of a hash resolves to the only commit whose hash starts with it, for every commit, unless
an object of another type has such a hash as well. That does no harm where several commits have one, or
none has but several other objects have.
-/
theorem resolve_prefix_iff (partial_ : Text.len start ≠ 64)
    (distinct : store.cas.store.cas.index.hashes.Nodup)
    : (∀ hash, (∃ after, resolveTargetRef (.commit start) store = .ok hash after)
        ↔ store.matchingCommits start = {hash})
      ↔ store.matchingObjects start ⊆ store.matchingCommits start
        ∨ (store.matchingCommits start).Nontrivial
        ∨ (store.matchingCommits start = ∅ ∧ (store.matchingObjects start).Nontrivial) := by
  rw [← eq_singleton_iff_of_subset (store.matchingCommits_subset start)]
  have members : {hash | hash ∈ store.cas.store.cas.index.findByPrefix start}
      = store.matchingObjects start := by
    ext hash
    exact Index.mem_findByPrefix
  have resolves (hash : Hash) : (∃ after, resolveTargetRef (.commit start) store = .ok hash after)
      ↔ store.matchingObjects start = {hash} := by
    have distinctFound : (store.cas.store.cas.index.findByPrefix start).Nodup := distinct.filter _
    rw [← members, ← eq_singleton_iff_of_nodup distinctFound]
    constructor
    · rintro ⟨after, ran⟩
      exact ((DiskStore.resolveHashRef_eq_ok partial_).mp (Run.mapErr_eq_ok.mp ran)).1
    · intro found
      exact ⟨store, Run.mapErr_eq_ok.mpr ((DiskStore.resolveHashRef_eq_ok partial_).mpr ⟨found, rfl⟩)⟩
  exact forall_congr' fun hash => by rw [resolves hash]

/-- In a new repository the first commit is all there is. -/
theorem matchingObjects_subset_of_fresh {path : Path} {branch message : String} {genesis : Hash}
    (fresh : store.Fresh path branch message genesis)
    : store.matchingObjects start ⊆ store.matchingCommits start := by
  rintro hash ⟨indexed, starts⟩
  obtain ⟨entry, found⟩ := Option.isSome_iff_exists.mp indexed
  obtain ⟨record, held⟩ := fresh.settled.sane.1.honest hash entry found
  obtain ⟨now, -, -, view, -⟩ := fresh.stored
  have isFirst := (congrFun view hash).symm.trans held
  rw [View.add] at isFirst
  split at isFirst
  · exact ⟨⟨_, held.trans isFirst.symm⟩, starts⟩
  · cases isFirst

/-- A prefix that one object has but no commit is resolved to that object. -/
theorem resolve_prefix_other (partial_ : Text.len start ≠ 64) (settled : store.Settled)
    (one : (store.cas.store.cas.index.findByPrefix start).length = 1)
    (others : ∀ object ∈ store.cas.handed, object.1 = .commit
      → ¬ (Hash.ofBytes object.2).StartsWith start)
    : ¬ ∀ hash, (∃ after, resolveTargetRef (.commit start) store = .ok hash after)
        ↔ store.matchingCommits start = {hash} := by
  intro same
  obtain ⟨other, found⟩ := List.length_eq_one_iff.mp one
  have resolved := (DiskStore.resolveHashRef_eq_ok partial_).mpr ⟨found, rfl⟩
  have only := (same other).mp ⟨store, Run.mapErr_eq_ok.mpr resolved⟩
  obtain ⟨⟨payload, held⟩, starts⟩ : other ∈ store.matchingCommits start := by
    rw [only]
    exact Set.mem_singleton other
  refine others _ (settled.told other _ held) rfl ?_
  rwa [settled.sane.1.keyed other _ held]

end Ql.Engine
end Epochs

namespace Epochs.Ql.Engine

open Lib DiskStore

attribute [local instance] Blake3.linked

theorem resolve_prefix_sample
    : Text.len "be19" ≠ 64
      ∧ ∀ hash, (∃ after, resolveTargetRef (.commit "be19") sample = .ok hash after)
          ↔ sample.matchingCommits "be19" = {hash} :=
  ⟨by decide, (resolve_prefix_iff (by decide) fresh_sample.settled.sane.1.distinct).mpr
    (.inl (matchingObjects_subset_of_fresh fresh_sample))⟩

def leafStore : DiskStore := Run.stateOf (applyHamtOps 64 none [.put [97] [49]] sample)

theorem settled_leafStore : leafStore.Settled :=
  fresh_sample.settled.serves (applyHamtOps_calls 64 none [.put [97] [49]] sample).toServes
    (by decide +kernel)

/-- The leaf is found where a commit is looked for. -/
theorem resolve_prefix_leaf
    : ¬ ∀ hash, (∃ after, resolveTargetRef (.commit "3684") leafStore = .ok hash after)
        ↔ leafStore.matchingCommits "3684" = {hash} := by
  refine resolve_prefix_other (by decide) settled_leafStore (by decide +kernel) ?_
  have commits : leafStore.cas.handed.all fun object =>
      object.1 ≠ .commit
        ∨ ¬ ("3684".toList.map Char.toLower).isPrefixOf (Hash.ofBytes object.2).toHex.toList := by
    decide +kernel
  intro object member isCommit starts
  have passed := List.all_eq_true.mp commits object member
  rw [Hash.StartsWith, ← List.isPrefixOf_iff_prefix] at starts
  simp only [isCommit, starts, ne_eq, not_true_eq_false, or_self, decide_false,
    Bool.false_eq_true] at passed

end Epochs.Ql.Engine
