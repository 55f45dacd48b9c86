import Epochs.Core.Backend
import Epochs.Lib.RunRules

/-! A store together with the history of what the layers above handed to it. The history is
what statements about those calls refer to: whether a payload was handed over under two
types, or two payloads share a hash, is a property of it.
-/

namespace Epochs

open Lib Run

/-- A store and the objects handed to its `put`, in order. No operation reads the history. -/
structure Traced (σ : Type) where
  store : σ
  handed : List (RecordType × Bytes)

namespace Traced

section Operations

variable {σ : Type}

def onStore {α : Type} (run : Run EpochsError σ α) : Run EpochsError (Traced σ) α :=
  Run.zoom store (fun traced store => { traced with store }) run

def Grows (before after : Traced σ) : Prop := before.handed <+: after.handed

theorem grows_frame : Frame (@Grows σ) where
  refl _ := List.prefix_rfl
  trans := List.IsPrefix.trans

theorem onStore_apply {α : Type} (run : Run EpochsError σ α) (traced : Traced σ)
    : onStore run traced
      = match run traced.store with
        | .ok value store => .ok value { traced with store }
        | .error fault store => .error fault { traced with store } := by
  simp only [onStore, zoom]
  cases run traced.store <;> rfl

@[simp]
theorem stateOf_onStore {α : Type} (run : Run EpochsError σ α) (traced : Traced σ)
    : stateOf (onStore run traced)
      = { traced with store := stateOf (run traced.store) } := by
  rw [onStore_apply]
  cases run traced.store <;> rfl

variable [CasBackend σ]

def put (recordType : RecordType) (payload : Bytes) : Run EpochsError (Traced σ) Hash := do
  modify fun traced => { traced with handed := traced.handed ++ [(recordType, payload)] }
  onStore (CasBackend.put recordType payload)

def getRecord (hash : Hash) : Run EpochsError (Traced σ) (RecordType × Bytes) :=
  onStore (CasBackend.getRecord hash)

def handOver (traced : Traced σ) (recordType : RecordType) (payload : Bytes) : Traced σ :=
  { traced with handed := traced.handed ++ [(recordType, payload)] }

theorem put_apply (recordType : RecordType) (payload : Bytes) (traced : Traced σ)
    : put recordType payload traced
      = onStore (CasBackend.put recordType payload) (traced.handOver recordType payload) := by
  simp [put, bind_apply, handOver]

theorem put_handed (recordType : RecordType) (payload : Bytes) (traced : Traced σ)
    : (stateOf (put recordType payload traced)).handed
      = traced.handed ++ [(recordType, payload)] := by
  rw [put_apply, stateOf_onStore]
  rfl

theorem put_grows (recordType : RecordType) (payload : Bytes)
    : Within Grows (put recordType payload : Run EpochsError (Traced σ) Hash) := by
  intro traced
  rw [Grows, put_handed]
  exact List.prefix_append _ _

theorem getRecord_grows (hash : Hash)
    : Within Grows (getRecord hash : Run EpochsError (Traced σ) (RecordType × Bytes)) := by
  intro traced
  rw [getRecord, stateOf_onStore]
  exact List.prefix_rfl

end Operations

/-- Different objects have different content hashes. In particular no payload stands under
two record types.
-/
def ClashFree [Blake3] (objects : List (RecordType × Bytes)) : Prop :=
  ∀ first ∈ objects, ∀ second ∈ objects,
    Hash.ofBytes first.2 = Hash.ofBytes second.2 → first = second

instance [Blake3] (objects : List (RecordType × Bytes)) : Decidable (ClashFree objects) :=
  inferInstanceAs (Decidable (∀ first ∈ objects, ∀ second ∈ objects,
    Hash.ofBytes first.2 = Hash.ofBytes second.2 → first = second))

variable {σ : Type} [Blake3] [CasBackend σ] [LawfulCas σ]

def view (traced : Traced σ) : View := LawfulCas.view traced.store

variable (σ) in
/-- No two of the objects clash, and the store has room for each payload. -/
structure Admissible (objects : List (RecordType × Bytes)) : Prop where
  clashFree : ClashFree objects
  storable : ∀ object ∈ objects, LawfulCas.Storable σ object.2

theorem Admissible.of_isPrefix {before after : List (RecordType × Bytes)}
    (admissible : Admissible σ after) (grows : before <+: after)
    : Admissible σ before where
  clashFree first inFirst second inSecond :=
    admissible.clashFree first (grows.subset inFirst) second (grows.subset inSecond)
  storable object member := admissible.storable object (grows.subset member)

/-- Everything the store holds was handed to it, is kept under its content hash, and the
objects handed over so far do not clash.
-/
structure Sound (traced : Traced σ) : Prop where
  valid : LawfulCas.Valid traced.store
  honest : LawfulCas.Honest traced.store
  handed : ∀ hash record, traced.view hash = some record → record ∈ traced.handed
  keyed : ∀ hash record, traced.view hash = some record → Hash.ofBytes record.2 = hash
  admissible : Admissible σ traced.handed

-- Frames of the operations

/-- A read: the history and what the store holds stay as they are. -/
structure Observes (before after : Traced σ) : Prop where
  handed : after.handed = before.handed
  valid : LawfulCas.Valid before.store → LawfulCas.Valid after.store
  honest : LawfulCas.Valid before.store → LawfulCas.Honest before.store
    → LawfulCas.Honest after.store
  view : LawfulCas.Valid before.store → after.view = before.view

/-- A step of a valid store that forgets nothing, as long as the payloads fit. -/
structure Advances (before after : Traced σ) : Prop where
  grows : Grows before after
  valid : LawfulCas.Valid before.store
    → (∀ object ∈ after.handed, LawfulCas.Storable σ object.2)
    → LawfulCas.Valid after.store
  extends_ : LawfulCas.Valid before.store
    → (∀ object ∈ after.handed, LawfulCas.Storable σ object.2)
    → before.view.Extends after.view

/-- A step that keeps a sound store sound, as long as the objects handed over do not clash. -/
structure Evolves (before after : Traced σ) : Prop where
  grows : Grows before after
  sound : before.Sound → Admissible σ after.handed → after.Sound
  extends_ : before.Sound → Admissible σ after.handed → before.view.Extends after.view

theorem observes_frame : Frame (@Observes σ _ _ _) where
  refl _ := ⟨rfl, id, fun _ => id, fun _ => rfl⟩
  trans before after :=
    { handed := after.handed.trans before.handed
      valid := fun valid => after.valid (before.valid valid)
      honest := fun valid honest => after.honest (before.valid valid) (before.honest valid honest)
      view := fun valid => (after.view (before.valid valid)).trans (before.view valid) }

theorem evolves_frame : Frame (@Evolves σ _ _ _) where
  refl _ := ⟨List.prefix_rfl, fun sound _ => sound, fun _ _ => View.Extends.refl _⟩
  trans before after :=
    { grows := before.grows.trans after.grows
      sound := fun sound admissible =>
        after.sound (before.sound sound (admissible.of_isPrefix after.grows)) admissible
      extends_ := fun sound admissible =>
        have earlier := admissible.of_isPrefix after.grows
        (before.extends_ sound earlier).trans
          (after.extends_ (before.sound sound earlier) admissible) }

theorem Observes.advances {before after : Traced σ} (observes : Observes before after)
    : Advances before after where
  grows := show before.handed <+: after.handed from observes.handed ▸ List.prefix_rfl
  valid valid _ := observes.valid valid
  extends_ valid _ := observes.view valid ▸ View.Extends.refl _

theorem Observes.sound {before after : Traced σ} (observes : Observes before after)
    (sound : before.Sound)
    : after.Sound where
  valid := observes.valid sound.valid
  honest := observes.honest sound.valid sound.honest
  handed hash record found := by
    rw [observes.handed]
    exact sound.handed hash record (observes.view sound.valid ▸ found)
  keyed hash record found := sound.keyed hash record (observes.view sound.valid ▸ found)
  admissible := observes.handed ▸ sound.admissible

theorem Observes.evolves {before after : Traced σ} (observes : Observes before after)
    : Evolves before after where
  grows := observes.advances.grows
  sound sound _ := observes.sound sound
  extends_ sound _ := observes.view sound.valid ▸ View.Extends.refl _

-- Reads and writes

/-- A read returns what the store holds and changes nothing. -/
theorem getRecord_spec {traced : Traced σ} (valid : LawfulCas.Valid traced.store) (hash : Hash)
    : ∃ next,
        Observes traced next
        ∧ match traced.view hash with
          | some record => getRecord hash traced = .ok record next
          | none => ∃ error, getRecord hash traced = .error (.err error) next := by
  obtain ⟨store, stillValid, stillHonest, same, read⟩ :=
    @LawfulCas.getRecord_spec σ _ _ _ traced.store hash valid
  refine ⟨{ traced with store }, ⟨rfl, fun _ => stillValid, fun _ => stillHonest, fun _ => same⟩, ?_⟩
  simp only [view, getRecord, onStore_apply]
  cases found : LawfulCas.view traced.store hash with
  | some record =>
    simp only [found] at read
    simp [read]
  | none =>
    simp only [found] at read
    obtain ⟨error, failed⟩ := read
    exact ⟨error, by simp [failed]⟩

theorem getRecord_observes (hash : Hash)
    : Within Observes (getRecord hash : Run EpochsError (Traced σ) (RecordType × Bytes)) := by
  intro traced
  have handed : (stateOf (getRecord hash traced)).handed = traced.handed := by
    rw [getRecord, stateOf_onStore]
  have seen (valid : LawfulCas.Valid traced.store)
      : Observes traced (stateOf (getRecord hash traced)) := by
    obtain ⟨next, observes, read⟩ := getRecord_spec valid hash
    cases found : traced.view hash with
    | some record =>
      simp only [found] at read
      rwa [read]
    | none =>
      simp only [found] at read
      obtain ⟨error, failed⟩ := read
      rwa [failed]
  exact ⟨handed, fun valid => (seen valid).valid valid, fun valid => (seen valid).honest valid,
    fun valid => (seen valid).view valid⟩

variable (σ) in
def Refused (fault : Fault EpochsError) : Prop :=
  LawfulCas.MayRefuse σ ∧ ∃ error, fault = .err error

theorem put_advances (recordType : RecordType) (payload : Bytes)
    : Within Advances (put recordType payload : Run EpochsError (Traced σ) Hash) := by
  intro traced
  have fits (storable : ∀ object ∈ (stateOf (put recordType payload traced)).handed,
      LawfulCas.Storable σ object.2) : LawfulCas.Storable σ payload :=
    storable (recordType, payload) (by rw [put_handed]; simp)
  refine ⟨put_grows recordType payload traced, fun valid storable => ?_, fun valid storable => ?_⟩
  · have kept := LawfulCas.put_keeps recordType valid (fits storable)
    simpa [put_apply, handOver] using kept.1
  · have kept := LawfulCas.put_keeps recordType valid (fits storable)
    simpa [put_apply, handOver, view] using kept.2

/-- After a write an honest store is honest, and it holds what it held and at most the object just
handed over.
-/
theorem put_holds (recordType : RecordType) {payload : Bytes} {traced : Traced σ}
    (valid : LawfulCas.Valid traced.store) (honest : LawfulCas.Honest traced.store)
    (storable : LawfulCas.Storable σ payload)
    : LawfulCas.Honest (stateOf (put recordType payload traced)).store
      ∧ ∀ hash record, (stateOf (put recordType payload traced)).view hash = some record
        → traced.view hash = some record
          ∨ (hash = Hash.ofBytes payload ∧ record = (recordType, payload)) := by
  rw [put_apply, stateOf_onStore]
  simp only [handOver, view]
  rcases LawfulCas.put_spec recordType valid honest storable with
    ⟨next, stored, still, seen⟩ | ⟨-, error, next, failed, still, seen⟩
  · rw [stored, stateOf_ok]
    refine ⟨still, fun hash record found => ?_⟩
    rw [seen] at found
    exact View.add_cases found
  · rw [failed, stateOf_error]
    exact ⟨still, fun hash record found => .inl (by rwa [← seen])⟩

/-- A write that clashes with nothing keeps the store sound: what it holds is what it held,
and at most the object just handed over.
-/
theorem put_evolves (recordType : RecordType) (payload : Bytes)
    : Within Evolves (put recordType payload : Run EpochsError (Traced σ) Hash) := by
  intro traced
  have advances := put_advances recordType payload traced
  refine ⟨advances.grows, fun sound admissible => ?_,
    fun sound admissible => advances.extends_ sound.valid admissible.storable⟩
  have handed := put_handed recordType payload traced
  obtain ⟨honest, held⟩ := put_holds recordType sound.valid sound.honest
    (admissible.storable (recordType, payload) (by rw [handed]; simp))
  refine ⟨advances.valid sound.valid admissible.storable, honest, fun hash record found => ?_,
    fun hash record found => ?_, admissible⟩
  · rw [handed]
    rcases held hash record found with earlier | ⟨-, rfl⟩
    · exact List.mem_append_left _ (sound.handed hash record earlier)
    · simp
  · rcases held hash record found with earlier | ⟨rfl, rfl⟩
    · exact sound.keyed hash record earlier
    · rfl

theorem getRecord_evolves (hash : Hash)
    : Within Evolves (getRecord hash : Run EpochsError (Traced σ) (RecordType × Bytes)) :=
  fun traced => (getRecord_observes hash traced).evolves

-- Postconditions of runs that hand over no clashing objects

/-- The result meets a postcondition, provided no objects handed over by its end clash. -/
def Achieves {α : Type} (post : α → Traced σ → Prop) (fault : Fault EpochsError → Prop)
    (result : EStateM.Result (Fault EpochsError) (Traced σ) α) : Prop :=
  Admissible σ (Run.stateOf result).handed → Run.Meets post (fun reason _ => fault reason) result

theorem Achieves.imp {α : Type} {post weaker : α → Traced σ → Prop}
    {fault weakerFault : Fault EpochsError → Prop}
    {result : EStateM.Result (Fault EpochsError) (Traced σ) α}
    (achieves : Achieves post fault result)
    (value : ∀ value last, post value last → weaker value last)
    (reason : ∀ reason, fault reason → weakerFault reason)
    : Achieves weaker weakerFault result :=
  fun admissible => (achieves admissible).imp value (fun why _ => reason why)

/-- A sequence from a sound store: the second part may use where the first part ended. -/
theorem Achieves.bind_ran {α β : Type} {traced : Traced σ} {run : Run EpochsError (Traced σ) α}
    {next : α → Run EpochsError (Traced σ) β} {post : α → Traced σ → Prop}
    {last : β → Traced σ → Prop} {fault : Fault EpochsError → Prop} (sound : traced.Sound)
    (evolves : Within Evolves run) (grows : ∀ value, Within Grows (next value))
    (first : Achieves post fault (run traced))
    (second : ∀ value middle, run traced = .ok value middle → middle.Sound
      → traced.view.Extends middle.view → post value middle
      → Achieves last fault (next value middle))
    : Achieves last fault ((run >>= next) traced) := by
  intro admissible
  have step := evolves traced
  cases outcome : run traced with
  | error reason middle =>
    rw [bind_of_error outcome] at admissible ⊢
    rw [outcome] at first
    exact first admissible
  | ok value middle =>
    rw [bind_of_ok outcome] at admissible ⊢
    rw [outcome] at first step
    have earlier := admissible.of_isPrefix (grows value middle)
    exact second value middle outcome (step.sound sound earlier) (step.extends_ sound earlier)
      (first earlier) admissible

theorem Achieves.bind {α β : Type} {traced : Traced σ} {run : Run EpochsError (Traced σ) α}
    {next : α → Run EpochsError (Traced σ) β} {post : α → Traced σ → Prop}
    {last : β → Traced σ → Prop} {fault : Fault EpochsError → Prop} (sound : traced.Sound)
    (evolves : Within Evolves run) (grows : ∀ value, Within Grows (next value))
    (first : Achieves post fault (run traced))
    (second : ∀ value middle, middle.Sound → traced.view.Extends middle.view → post value middle
      → Achieves last fault (next value middle))
    : Achieves last fault ((run >>= next) traced) :=
  bind_ran sound evolves grows first fun value middle _ => second value middle

/-- A run from a sound store that meets a postcondition also leaves the store sound, holding at
least what it held.
-/
theorem Achieves.sound {α : Type} {traced : Traced σ} {run : Run EpochsError (Traced σ) α}
    {post : α → Traced σ → Prop} {fault : Fault EpochsError → Prop}
    (achieves : Achieves post fault (run traced)) (evolves : Within Evolves run)
    (sound : traced.Sound)
    : Achieves
        (fun value last => last.Sound ∧ traced.view.Extends last.view ∧ post value last)
        fault (run traced) := by
  intro admissible
  have step := evolves traced
  have meets := achieves admissible
  cases outcome : run traced with
  | error reason last =>
    rw [outcome] at meets
    exact meets
  | ok value last =>
    rw [outcome] at meets step admissible
    exact ⟨step.sound sound admissible, step.extends_ sound admissible, meets⟩

/-- A write of an object that clashes with none before it is kept under its content hash. -/
theorem put_achieves {traced : Traced σ} (sound : traced.Sound) (recordType : RecordType)
    (payload : Bytes)
    : Achieves
        (fun hash next =>
          traced.view.Extends next.view ∧ next.view hash = some (recordType, payload))
        (Refused σ)
        (put recordType payload traced) := by
  intro admissible
  have more := (put_evolves recordType payload traced).extends_ sound admissible
  rw [put_handed] at admissible
  have compatible : ∀ other, traced.view (Hash.ofBytes payload) = some other
      → other = (recordType, payload) := by
    intro other found
    refine admissible.clashFree other ?_ (recordType, payload) (by simp) ?_
    · exact List.mem_append_left _ (sound.handed _ _ found)
    · exact sound.keyed _ _ found
  rw [put_apply, onStore_apply] at more ⊢
  rcases LawfulCas.put_spec recordType sound.valid sound.honest
      (admissible.storable (recordType, payload) (by simp)) with
    ⟨next, stored, -, seen⟩ | ⟨refuses, error, next, failed, -, -⟩
  · simp only [handOver, stored, meets_ok, stateOf_ok] at more ⊢
    refine ⟨more, ?_⟩
    simp only [view, seen]
    exact View.add_self compatible
  · simp only [handOver, failed, meets_error]
    exact ⟨refuses, error, rfl⟩

end Traced
end Epochs
