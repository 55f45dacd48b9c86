import Epochs.Core.Traced
import Epochs.Disk.Clean
import Epochs.Disk.Spares

/-! The store of objects inside a repository: a change around its files leaves it as it is, and
its own operations write its files only, keep it clean and lose no object while the payloads fit.
-/

namespace Epochs

open Lib Run

-- The store of objects

namespace CasDisk

variable [Blake3] {disk : CasDisk}

def Sane (disk : CasDisk) : Prop := disk.Clean ∧ disk.world.deadline = none

theorem Sane.valid (sane : disk.Sane) : disk.Valid := ⟨sane.1.toConsistent, sane.2⟩

omit [Blake3] in
theorem owned_segmentPath (disk : CasDisk) (segmentId : Nat)
    : Owned disk.cas.repoPath (disk.segmentPath segmentId) :=
  owned_segmentPathFor _ _

/-- A change of the world around a store that leaves the store's own files. -/
structure Around (disk : CasDisk) (world : World) : Prop where
  formed : world.fs.WellFormed
  nodes : ∀ path, Owned disk.cas.repoPath path ∨ path <+: disk.cas.repoPath ++ ["data"]
    → world.fs.node path = disk.fs.node path
  contents : ∀ path inode, Owned disk.cas.repoPath path → disk.fs.inodeAt path = some inode
    → world.fs.content inode = disk.fs.content inode

namespace Around

variable {world : World} (around : Around disk world)
include around

omit [Blake3] in
theorem inodeAt {path : Path} (owned : Owned disk.cas.repoPath path)
    : world.fs.inodeAt path = disk.fs.inodeAt path := by
  simp only [FileSystem.inodeAt, around.nodes path (.inl owned)]

omit [Blake3] in
theorem segmentBytes (attached : disk.Attached) (segmentId : Nat)
    : ({ disk with world } : CasDisk).segmentBytes segmentId = disk.segmentBytes segmentId := by
  have owned := owned_segmentPath disk segmentId
  by_cases current : segmentId = disk.cas.currentSegmentId
  · subst current
    refine (segmentBytes_current ({ disk with world } : CasDisk)).trans ?_
    rw [segmentBytes_current]
    exact congrArg (· ++ _) (around.contents _ _ owned attached.active)
  · exact segmentBytes_of_ne rfl (around.inodeAt owned)
      (fun inode found => around.contents _ inode owned found) current current

theorem view (attached : disk.Attached)
    : ({ disk with world } : CasDisk).view = disk.view := by
  funext hash
  simp only [CasDisk.view, around.segmentBytes attached]

omit [Blake3] in
theorem indexBytes (attached : disk.Attached)
    : ({ disk with world } : CasDisk).indexBytes = disk.indexBytes :=
  around.contents _ _ (.inl rfl) attached.indexed

omit [Blake3] in
theorem attached (attached : disk.Attached) : ({ disk with world } : CasDisk).Attached where
  formed := around.formed
  data := (around.nodes _ (.inr List.prefix_rfl)).trans attached.data
  indexed := (around.inodeAt (.inl rfl)).trans attached.indexed
  active := (around.inodeAt (owned_segmentPath disk _)).trans attached.active
  offset := by
    rw [around.segmentBytes attached]
    exact attached.offset
  bounded := attached.bounded
  unused segmentId later small :=
    (around.nodes _ (.inl (owned_segmentPath disk segmentId))).trans
      (attached.unused segmentId later small)
  located := attached.located
  mapped segmentId map found := by
    obtain ⟨small, other, file, length⟩ := attached.mapped segmentId map found
    have owned := owned_segmentPath disk segmentId
    refine ⟨small, other, (around.inodeAt owned).trans file, ?_⟩
    rw [show ({ disk with world } : CasDisk).fs.content map.file = _ from
      around.contents _ _ owned file]
    exact length

/-- The store stays clean, with the same objects. -/
theorem clean (clean : disk.Clean) : ({ disk with world } : CasDisk).Clean where
  toAttached := around.attached clean.toAttached
  cached hash record found := by
    rw [around.view clean.toAttached]
    exact clean.cached hash record found
  dirs front above := (around.nodes front (.inr above)).trans (clean.dirs front above)
  log := by
    rw [around.indexBytes clean.toAttached]
    exact clean.log
  names name node found := by
    refine clean.names name node ((around.nodes _ (.inl (.inr ?_))).symm.trans found)
    exact ⟨[name], by simp⟩
  headed := by
    rw [around.segmentBytes clean.toAttached]
    exact clean.headed
  honest hash entry found := by
    rw [around.view clean.toAttached]
    exact clean.honest hash entry found
  keyed hash record held := by
    rw [around.view clean.toAttached] at held
    exact clean.keyed hash record held

end Around

-- Steps of the store of objects

/-- A step that leaves the objects of a clean store as they are. -/
structure Looks (before after : CasDisk) : Prop where
  effects : Effects before after
  sane : before.Sane → after.Sane
  view : before.Sane → after.view = before.view
  node : before.Sane → ∀ path, after.fs.node path = before.fs.node path

theorem looks_frame : Frame Looks where
  refl _ := ⟨effects_frame.refl _, id, fun _ => rfl, fun _ _ => rfl⟩
  trans first second :=
    { effects := effects_frame.trans first.effects second.effects
      sane := fun sane => second.sane (first.sane sane)
      view := fun sane => (second.view (first.sane sane)).trans (first.view sane)
      node := fun sane path =>
        (second.node (first.sane sane) path).trans (first.node sane path) }

/-- A change of the world that changes no file. -/
theorem looks_of_same_files {world : World} (same : world.fs = disk.fs)
    (lives : disk.world.Lives world)
    : Looks disk { disk with world } := by
  have around (sane : disk.Sane) : Around disk world :=
    ⟨same ▸ sane.1.formed, fun _ _ => by rw [same], fun _ _ _ _ => by rw [same]⟩
  exact ⟨.single (.quiet rfl rfl rfl same), fun sane => ⟨(around sane).clean sane.1, lives sane.2⟩,
    fun sane => (around sane).view sane.1.toAttached, fun _ path => congrArg (·.node path) same⟩

theorem getPayload_looks (hash : Hash) : Within Looks (getPayload hash) := by
  intro disk
  have kept (sane : disk.Sane) : (stateOf (getPayload hash disk)).Sane
      ∧ (stateOf (getPayload hash disk)).view = disk.view
      ∧ ∀ path, (stateOf (getPayload hash disk)).fs.node path = disk.fs.node path := by
    have meets := getPayload_meets sane.1.toConsistent sane.2 hash
    cases outcome : getPayload hash disk with
    | ok record next =>
      rw [outcome] at meets
      obtain ⟨-, middle, cache, rfl, consistent, keeps, cached⟩ := meets
      exact ⟨⟨(keeps.clean sane.1 consistent.toAttached).recache cached, keeps.lives sane.2⟩,
        keeps.view sane.1.toAttached, keeps.node⟩
    | error reason next =>
      rw [outcome] at meets
      obtain ⟨-, consistent, keeps, -⟩ := meets
      exact ⟨⟨keeps.clean sane.1 consistent.toAttached, keeps.lives sane.2⟩,
        keeps.view sane.1.toAttached, keeps.node⟩
  exact ⟨getPayload_effects hash disk, fun sane => (kept sane).1, fun sane => (kept sane).2.1,
    fun sane => (kept sane).2.2⟩

omit [Blake3] in
theorem flush_returns (attached : disk.Attached) (alive : disk.world.deadline = none)
    : ∃ next, flush disk = .ok () next ∧ next.Attached ∧ Keeps disk next
        ∧ next.cas.currentFile.buffer = [] := by
  obtain ⟨_, next, ran, flushed⟩ :=
    (flush_meets attached).returns fun reason next halts => halts.1.2 alive
  exact ⟨next, ran, flushed⟩

theorem flush_looks : Within Looks flush := by
  intro disk
  have kept (sane : disk.Sane) : (stateOf (flush disk)).Sane
      ∧ (stateOf (flush disk)).view = disk.view
      ∧ ∀ path, (stateOf (flush disk)).fs.node path = disk.fs.node path := by
    obtain ⟨next, ran, attached, keeps, -⟩ := flush_returns sane.1.toAttached sane.2
    rw [ran]
    exact ⟨⟨keeps.clean sane.1 attached, keeps.lives sane.2⟩, keeps.view sane.1.toAttached,
      keeps.node⟩
  exact ⟨flush_effects disk, fun sane => (kept sane).1, fun sane => (kept sane).2.1,
    fun sane => (kept sane).2.2⟩

/-- What a write does to a clean store: it keeps it clean and every name, and the store then
holds what it held before, with or without the payload.
-/
theorem put_sane (sane : disk.Sane) (recordType : RecordType) {payload : Bytes}
    (fits : payload.length + 45 < 2 ^ 32)
    : (stateOf (put recordType payload disk)).Sane
      ∧ (∀ path node, disk.fs.node path = some node
        → (stateOf (put recordType payload disk)).fs.node path = some node)
      ∧ ((stateOf (put recordType payload disk)).view = disk.view
        ∨ (stateOf (put recordType payload disk)).view
          = disk.view.add (Hash.ofBytes payload) (recordType, payload)) := by
  rcases put_cases sane.valid recordType (.inl fits) with
    ⟨ran, -⟩ | ⟨fresh, next, entry, ran, attached, stores⟩ | ⟨-, error, next, ran, refuses⟩
  · rw [ran]
    exact ⟨sane, fun _ _ found => found, .inl rfl⟩
  · rw [ran]
    exact ⟨⟨stores.clean sane.1 attached fresh, stores.lives sane.2⟩, stores.kept,
      .inr (stores.view_eq_add sane.1.toAttached sane.1.honest fresh)⟩
  · rw [ran]
    obtain ⟨-, -, attached, keeps⟩ := refuses
    exact ⟨⟨keeps.clean sane.1 attached, keeps.lives sane.2⟩,
      fun path node found => (keeps.node path).trans found, .inl (keeps.view sane.1.toAttached)⟩

end CasDisk

-- The store with its history

namespace Traced

variable [Blake3]

/-- Every payload fits a record. -/
def Roomy (handed : List (RecordType × Bytes)) : Prop :=
  ∀ object ∈ handed, object.2.length + 45 < 2 ^ 32

instance (handed : List (RecordType × Bytes)) : Decidable (Roomy handed) :=
  inferInstanceAs (Decidable (∀ object ∈ handed, object.2.length + 45 < 2 ^ 32))

/-- The store holds only what was handed to it. -/
def Told (traced : Traced CasDisk) : Prop :=
  ∀ hash record, traced.store.view hash = some record → record ∈ traced.handed

/-- A step that forgets no object of a clean store while the payloads fit. -/
structure Serves (before after : Traced CasDisk) : Prop where
  grows : Grows before after
  effects : before.store.Effects after.store
  sane : before.store.Sane → Roomy after.handed → after.store.Sane
  extends_ : before.store.Sane → Roomy after.handed
    → before.store.view.Extends after.store.view
  told : before.store.Sane → Roomy after.handed → before.Told → after.Told
  kept : before.store.Sane → Roomy after.handed
    → ∀ path node, before.store.fs.node path = some node → after.store.fs.node path = some node

omit [Blake3] in
theorem Roomy.of_prefix {before after : List (RecordType × Bytes)} (roomy : Roomy after)
    (grows : before <+: after)
    : Roomy before :=
  fun object member => roomy object (grows.subset member)

variable {before after : Traced CasDisk}

omit [Blake3] in
theorem Roomy.of_grows (roomy : Roomy after.handed)
    (grows : Grows before after)
    : Roomy before.handed :=
  roomy.of_prefix grows

theorem serves_frame : Frame Serves where
  refl _ :=
    { grows := List.prefix_rfl
      effects := CasDisk.effects_frame.refl _
      sane := fun sane _ => sane
      extends_ := fun _ _ => View.Extends.refl _
      told := fun _ _ told => told
      kept := fun _ _ _ _ found => found }
  trans first second :=
    { grows := first.grows.trans second.grows
      effects := CasDisk.effects_frame.trans first.effects second.effects
      sane := fun sane roomy => second.sane (first.sane sane (roomy.of_grows second.grows)) roomy
      extends_ := fun sane roomy =>
        (first.extends_ sane (roomy.of_grows second.grows)).trans
          (second.extends_ (first.sane sane (roomy.of_grows second.grows)) roomy)
      told := fun sane roomy told =>
        second.told (first.sane sane (roomy.of_grows second.grows)) roomy
          (first.told sane (roomy.of_grows second.grows) told)
      kept := fun sane roomy path node found =>
        second.kept (first.sane sane (roomy.of_grows second.grows)) roomy path node
          (first.kept sane (roomy.of_grows second.grows) path node found) }

theorem Serves.spares (serves : Serves before after)
    : before.store.Spares after.store :=
  serves.effects.spares

/-- A step that hands nothing over and leaves the objects. -/
structure Looks (before after : Traced CasDisk) : Prop where
  handed : after.handed = before.handed
  objects : before.store.Looks after.store

theorem looks_frame : Frame Looks where
  refl _ := ⟨rfl, CasDisk.looks_frame.refl _⟩
  trans first second :=
    ⟨second.handed.trans first.handed, CasDisk.looks_frame.trans first.objects second.objects⟩

theorem Looks.serves (looks : Looks before after)
    : Serves before after where
  grows := show before.handed <+: after.handed from looks.handed ▸ List.prefix_rfl
  effects := looks.objects.effects
  sane sane _ := looks.objects.sane sane
  extends_ sane _ := looks.objects.view sane ▸ View.Extends.refl _
  told sane _ told hash record held := by
    rw [looks.handed]
    exact told hash record (looks.objects.view sane ▸ held)
  kept sane _ path node found := (looks.objects.node sane path).trans found

theorem onStore_looks {α : Type} {run : Run EpochsError CasDisk α}
    (looks : Within CasDisk.Looks run)
    : Within Looks (onStore run) := by
  intro traced
  rw [stateOf_onStore]
  exact ⟨rfl, looks traced.store⟩

theorem getRecord_looks (hash : Hash)
    : Within Looks (getRecord hash : Run EpochsError (Traced CasDisk) _) :=
  onStore_looks (CasDisk.getPayload_looks hash)

theorem put_serves (recordType : RecordType) (payload : Bytes)
    : Within Serves (put recordType payload : Run EpochsError (Traced CasDisk) Hash) := by
  intro traced
  have fits (roomy : Roomy (stateOf (put recordType payload traced)).handed)
      : payload.length + 45 < 2 ^ 32 := by
    rw [put_handed] at roomy
    exact roomy (recordType, payload) (by simp)
  have handed := put_handed recordType payload traced
  have store : (stateOf (put recordType payload traced)).store
      = stateOf (CasDisk.put recordType payload traced.store) := by
    rw [put_apply, stateOf_onStore]
    rfl
  refine ⟨put_grows recordType payload traced, ?_, fun sane roomy => ?_, fun sane roomy => ?_,
    fun sane roomy told hash record held => ?_, fun sane roomy => ?_⟩
  · rw [store]
    exact CasDisk.put_effects recordType payload traced.store
  · rw [store]
    exact (CasDisk.put_sane sane recordType (fits roomy)).1
  · rw [store]
    rcases (CasDisk.put_sane sane recordType (fits roomy)).2.2 with same | added
    · rw [same]
      exact View.Extends.refl _
    · rw [added]
      exact View.extends_add _ _ _
  · rw [store] at held
    rw [handed, List.mem_append]
    rcases (CasDisk.put_sane sane recordType (fits roomy)).2.2 with same | added
    · rw [same] at held
      exact .inl (told hash record held)
    · rw [added] at held
      rcases View.add_cases held with old | ⟨-, rfl⟩
      · exact .inl (told hash record old)
      · simp
  · rw [store]
    exact (CasDisk.put_sane sane recordType (fits roomy)).2.1

end Traced
end Epochs
