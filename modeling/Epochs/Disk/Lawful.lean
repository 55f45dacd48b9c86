import Epochs.Disk.Reads

/-! The store on disk meets the laws of a store while it is not killed, from every state that
agrees with its files.
-/

namespace Epochs

open Lib

namespace CasDisk

variable [Blake3] {before after disk : CasDisk} {hash : Hash} {record : RecordType × Bytes}
  {entry : IndexEntry}

namespace Stores

theorem find_self (stores : Stores before after hash record entry)
    : after.cas.index.find hash = some entry := by
  rw [Index.find, stores.entries, AssocMap.lookup_insert_self]

theorem find_of_ne (stores : Stores before after hash record entry) {other : Hash}
    (different : other ≠ hash)
    : after.cas.index.find other = before.cas.index.find other := by
  rw [Index.find, stores.entries, AssocMap.lookup_insert_of_ne different.symm, Index.find]

theorem view_self (stores : Stores before after hash record entry)
    : after.view hash = some record := by
  rw [view, stores.find_self, Option.bind_some, stores.stored]

theorem view_of_ne (stores : Stores before after hash record entry) (attached : before.Attached)
    {other : Hash} (different : other ≠ hash) {found : RecordType × Bytes}
    (held : before.view other = some found)
    : after.view other = some found := by
  rw [view, Option.bind_eq_some_iff] at held
  obtain ⟨location, indexed, here⟩ := held
  rw [view, stores.find_of_ne different, indexed, Option.bind_some]
  exact recordAt_mono (stores.segmentBytes _ (attached.located other location indexed)) here

/-- A write of a new hash loses no object. -/
theorem extends_ (stores : Stores before after hash record entry) (attached : before.Attached)
    (fresh : before.cas.index.find hash = none)
    : before.view.Extends after.view := by
  intro other found held
  refine stores.view_of_ne attached ?_ held
  rintro rfl
  simp [view, fresh] at held

theorem consistent (stores : Stores before after hash record entry)
    (consistent : before.Consistent) (attached : after.Attached)
    (fresh : before.cas.index.find hash = none)
    : after.Consistent :=
  ⟨attached, fun other found here => by
    rw [stores.writeCache] at here
    rcases LruMap.get_insert here with ⟨rfl, rfl⟩ | old
    · exact stores.view_self
    · exact stores.extends_ consistent.toAttached fresh _ _ (consistent.cached _ _ old)⟩

theorem honest (stores : Stores before after hash record entry) (attached : before.Attached)
    (honest : before.Honest)
    : after.Honest := by
  intro other location found
  by_cases same : other = hash
  · exact ⟨record, same ▸ stores.view_self⟩
  · rw [stores.find_of_ne same] at found
    obtain ⟨held, here⟩ := honest other location found
    exact ⟨held, stores.view_of_ne attached same here⟩

/-- In an honest store a write of a new hash adds one object. -/
theorem view_eq_add (stores : Stores before after hash record entry) (attached : before.Attached)
    (honest : before.Honest) (fresh : before.cas.index.find hash = none)
    : after.view = before.view.add hash record := by
  have unheld : before.view hash = none := by simp [view, fresh]
  funext other
  by_cases same : other = hash
  · subst same
    rw [stores.view_self, View.add, if_pos rfl, unheld, Option.getD_none]
  · rw [View.add, if_neg same]
    cases found : before.cas.index.find other with
    | none => simp [view, stores.find_of_ne same, found]
    | some location =>
      obtain ⟨held, here⟩ := honest other location found
      rw [here, stores.view_of_ne attached same here]

end Stores

def Valid (disk : CasDisk) : Prop := disk.Consistent ∧ disk.world.deadline = none

/-- What a write does to a store that is not killed: nothing to a hash that is indexed, else it
stores the payload or refuses it.
-/
theorem put_cases (valid : disk.Valid) (recordType : RecordType) {payload : Bytes}
    (takes : disk.Takes payload)
    : (put recordType payload disk = .ok (Hash.ofBytes payload) disk
        ∧ ∃ entry, disk.cas.index.find (Hash.ofBytes payload) = some entry)
      ∨ (disk.cas.index.find (Hash.ofBytes payload) = none
        ∧ ∃ next entry, put recordType payload disk = .ok (Hash.ofBytes payload) next
          ∧ next.Attached
          ∧ Stores disk next (Hash.ofBytes payload) (recordType, payload) entry)
      ∨ (disk.cas.index.find (Hash.ofBytes payload) = none
        ∧ ∃ error next, put recordType payload disk = .error (.err error) next
          ∧ disk.Refuses (.err error) next) := by
  cases found : disk.cas.index.find (Hash.ofBytes payload) with
  | some entry =>
    refine .inl ⟨put_of_contains ?_ recordType, entry, rfl⟩
    rw [Index.find] at found
    simp [Index.contains, AssocMap.contains, found]
  | none =>
    have fresh := Index.contains_eq_false.mpr found
    rcases takes with fits | present | full
    rotate_left
    · simp [fresh] at present
    · exact .inr (.inr ⟨rfl, put_of_full valid.1.toAttached valid.2 recordType fresh full⟩)
    have meets := put_meets valid.1.toAttached recordType fits fresh
    cases outcome : put recordType payload disk with
    | ok value next =>
      rw [outcome] at meets
      obtain ⟨rfl, attached, entry, stores⟩ := meets
      exact .inr (.inl ⟨rfl, next, entry, rfl, attached, stores⟩)
    | error reason next =>
      rw [outcome] at meets
      rcases meets with halts | refuses
      · exact absurd valid.2 halts.1.2
      · obtain ⟨rfl, rest⟩ := refuses
        exact .inr (.inr ⟨rfl, _, next, rfl, rfl, rest⟩)

instance : LawfulCas CasDisk where
  Valid := Valid
  Honest := Honest
  view := view
  Storable payload := payload.length + 45 < 2 ^ 32
  MayRefuse := True
  put_keeps {disk} recordType payload valid fits := by
    rcases put_cases valid recordType (.inl fits) with
      ⟨ran, -⟩ | ⟨fresh, next, entry, ran, attached, stores⟩ | ⟨-, error, next, ran, refuses⟩
    · rw [show CasBackend.put recordType payload disk = _ from ran]
      exact ⟨valid, View.Extends.refl _⟩
    · rw [show CasBackend.put recordType payload disk = _ from ran]
      exact ⟨⟨stores.consistent valid.1 attached fresh, stores.lives valid.2⟩,
        stores.extends_ valid.1.toAttached fresh⟩
    · rw [show CasBackend.put recordType payload disk = _ from ran]
      obtain ⟨-, -, attached, keeps⟩ := refuses
      refine ⟨⟨keeps.consistent valid.1 attached, keeps.lives valid.2⟩, ?_⟩
      rw [Run.stateOf_error, keeps.view valid.1.toAttached]
      exact View.Extends.refl _
  put_spec {disk} recordType payload valid honest fits := by
    rcases put_cases valid recordType (.inl fits) with
      ⟨ran, entry, found⟩ | ⟨fresh, next, entry, ran, attached, stores⟩
        | ⟨-, error, next, ran, refuses⟩
    · obtain ⟨record, held⟩ := honest _ _ found
      exact .inl ⟨disk, ran, honest, (View.add_of_held held _).symm⟩
    · exact .inl ⟨next, ran, stores.honest valid.1.toAttached honest,
        stores.view_eq_add valid.1.toAttached honest fresh⟩
    · obtain ⟨-, -, -, keeps⟩ := refuses
      exact .inr ⟨trivial, error, next, ran, keeps.honest valid.1.toAttached honest,
        keeps.view valid.1.toAttached⟩
  getRecord_spec {disk} hash valid := by
    have meets := getPayload_meets valid.1 valid.2 hash
    cases outcome : getPayload hash disk with
    | ok record next =>
      rw [outcome] at meets
      obtain ⟨held, middle, cache, rfl, consistent, keeps, cached⟩ := meets
      refine ⟨_, ⟨consistent.recache cached, keeps.lives valid.2⟩, ?_, keeps.view valid.1.toAttached, ?_⟩
      · exact fun honest => keeps.honest valid.1.toAttached honest
      · rw [held]
        exact outcome
    | error reason next =>
      rw [outcome] at meets
      obtain ⟨unheld, consistent, keeps, ⟨error, rfl⟩, -⟩ := meets
      refine ⟨next, ⟨consistent, keeps.lives valid.2⟩, ?_, keeps.view valid.1.toAttached, ?_⟩
      · exact fun honest => keeps.honest valid.1.toAttached honest
      · rw [unheld]
        exact ⟨error, outcome⟩

end CasDisk
end Epochs
