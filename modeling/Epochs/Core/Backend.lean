import Epochs.Core.Record
import Epochs.Lib.AssocMap

/-! The interface between the content-addressable store and the layers above it, the
in-memory store, and the laws every store has to meet.
-/

namespace Epochs

open Lib

abbrev View := Hash → Option (RecordType × Bytes)

namespace View

def Extends (before after : View) : Prop :=
  ∀ hash record, before hash = some record → after hash = some record

def add (view : View) (hash : Hash) (record : RecordType × Bytes) : View := fun other =>
  if other = hash then some ((view hash).getD record) else view other

theorem Extends.refl (view : View) : view.Extends view := fun _ _ found => found

theorem Extends.trans {first second third : View} (before : first.Extends second)
    (after : second.Extends third)
    : first.Extends third :=
  fun hash record found => after hash record (before hash record found)

/-- A deduplicating write loses nothing, since it never replaces an object. -/
theorem extends_add (view : View) (hash : Hash) (record : RecordType × Bytes)
    : view.Extends (view.add hash record) := by
  intro other found here
  by_cases same : other = hash
  · subst same
    simp [add, here]
  · simp [add, same, here]

variable {view : View} {hash : Hash}

/-- A write is visible when its hash was free or held the same object. -/
theorem add_self {record : RecordType × Bytes}
    (compatible : ∀ other, view hash = some other → other = record)
    : view.add hash record hash = some record := by
  cases found : view hash with
  | none => simp [add, found]
  | some other => simp [add, found, compatible other found]

/-- A write under a taken hash changes nothing. -/
theorem add_of_held {held : RecordType × Bytes}
    (found : view hash = some held) (record : RecordType × Bytes)
    : view.add hash record = view := by
  funext other
  by_cases same : other = hash
  · simp [add, same, found]
  · simp [add, same]

/-- After a write, an object held under a hash was held before or is the one written. -/
theorem add_cases {other : Hash} {record found : RecordType × Bytes}
    (here : view.add hash record other = some found)
    : view other = some found ∨ (other = hash ∧ found = record) := by
  by_cases same : other = hash
  · subst same
    cases before : view other with
    | none => exact .inr ⟨rfl, by simpa [add, before] using here.symm⟩
    | some old => exact .inl (by simpa [add, before] using here)
  · exact .inl (by simpa [add, same] using here)

end View

class CasBackend (σ : Type) where
  put : RecordType → Bytes → Run EpochsError σ Hash
  getRecord : Hash → Run EpochsError σ (RecordType × Bytes)

/-- The laws of a store. In every valid state a read returns what the store holds, and no
operation forgets an object. In an honest state, one in which every object the store would
deduplicate against can be read, a write deduplicates by content hash alone. A store that
may run out of room may refuse a write, and then holds what it held before.
-/
class LawfulCas (σ : Type) [Blake3] [CasBackend σ] where
  Valid : σ → Prop
  Honest : σ → Prop
  view : σ → View
  Storable : Bytes → Prop
  MayRefuse : Prop
  put_keeps
    : ∀ {store : σ} (recordType : RecordType) {payload : Bytes},
        Valid store
        → Storable payload
        → Valid (Run.stateOf (CasBackend.put recordType payload store))
          ∧ (view store).Extends (view (Run.stateOf (CasBackend.put recordType payload store)))
  put_spec
    : ∀ {store : σ} (recordType : RecordType) {payload : Bytes},
        Valid store
        → Honest store
        → Storable payload
        → (∃ next,
            CasBackend.put recordType payload store = .ok (Hash.ofBytes payload) next
            ∧ Honest next
            ∧ view next = (view store).add (Hash.ofBytes payload) (recordType, payload))
          ∨ (MayRefuse
            ∧ ∃ error next,
              CasBackend.put recordType payload store = .error (.err error) next
              ∧ Honest next
              ∧ view next = view store)
  getRecord_spec
    : ∀ {store : σ} (hash : Hash),
        Valid store
        → ∃ next,
            Valid next
            ∧ (Honest store → Honest next)
            ∧ view next = view store
            ∧ match view store hash with
              | some record => CasBackend.getRecord hash store = .ok record next
              | none => ∃ error, CasBackend.getRecord hash store = .error (.err error) next

-- The in-memory store

structure MemCas where
  objects : AssocMap Hash (RecordType × Bytes)
  deriving DecidableEq

namespace MemCas

def new : MemCas := ⟨[]⟩

def contains (cas : MemCas) (hash : Hash) : Bool := cas.objects.contains hash

def put [Blake3] (recordType : RecordType) (payload : Bytes) : Run EpochsError MemCas Hash := do
  let hash := Hash.ofBytes payload
  modify fun cas =>
    match AssocMap.lookup hash cas.objects with
    | some _ => cas
    | none => ⟨AssocMap.insert hash (recordType, payload) cas.objects⟩
  pure hash

def getRecord (hash : Hash) : Run EpochsError MemCas (RecordType × Bytes) := do
  let cas ← get
  match AssocMap.lookup hash cas.objects with
  | some record => pure record
  | none => Run.fail (.storage (.notFound hash))

def view (cas : MemCas) : View := fun hash => AssocMap.lookup hash cas.objects

instance [Blake3] : CasBackend MemCas where
  put := put
  getRecord := getRecord

@[simp]
theorem view_new (hash : Hash) : new.view hash = none := rfl

/-- A write to memory always succeeds and deduplicates. -/
theorem put_apply [Blake3] (recordType : RecordType) (payload : Bytes) (cas : MemCas)
    : ∃ next : MemCas,
        put recordType payload cas = .ok (Hash.ofBytes payload) next
        ∧ next.view = cas.view.add (Hash.ofBytes payload) (recordType, payload) := by
  cases found : AssocMap.lookup (Hash.ofBytes payload) cas.objects with
  | some record =>
    refine ⟨cas, by simp [put, Run.map_apply, found], ?_⟩
    funext other
    by_cases same : other = Hash.ofBytes payload <;> simp [view, View.add, same, found]
  | none =>
    refine ⟨⟨AssocMap.insert (Hash.ofBytes payload) (recordType, payload) cas.objects⟩,
      by simp [put, Run.map_apply, found], ?_⟩
    funext other
    by_cases same : other = Hash.ofBytes payload
    · simp [view, View.add, same, found]
    · simp [view, View.add, same, AssocMap.lookup_insert_of_ne (Ne.symm same)]

/-- A read from memory returns what is held, or reports the hash as not found. -/
theorem getRecord_apply (hash : Hash) (cas : MemCas)
    : getRecord hash cas
      = match cas.view hash with
        | some record => .ok record cas
        | none => .error (.err (.storage (.notFound hash))) cas := by
  cases found : AssocMap.lookup hash cas.objects with
  | some record => simp [view, getRecord, Run.bind_apply, found]
  | none => simp [view, getRecord, Run.bind_apply, found]

instance [Blake3] : LawfulCas MemCas where
  Valid _ := True
  Honest _ := True
  view := view
  Storable _ := True
  MayRefuse := False
  put_keeps {cas} recordType payload _ _ := by
    obtain ⟨next, stored, seen⟩ := put_apply recordType payload cas
    refine ⟨trivial, ?_⟩
    rw [show CasBackend.put recordType payload cas = _ from stored, Run.stateOf_ok, seen]
    exact View.extends_add _ _ _
  put_spec recordType payload _ _ _ := by
    obtain ⟨next, stored, seen⟩ := put_apply recordType payload _
    exact .inl ⟨next, stored, trivial, seen⟩
  getRecord_spec {cas} hash _ := by
    refine ⟨cas, trivial, fun _ => trivial, rfl, ?_⟩
    rw [show CasBackend.getRecord hash cas = _ from getRecord_apply hash cas]
    cases cas.view hash with
    | some record => rfl
    | none => exact ⟨_, rfl⟩

end MemCas
end Epochs
