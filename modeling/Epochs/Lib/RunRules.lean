import Epochs.Lib.Fault

/-! Reasoning rules for runs: what every ending of a run keeps, postconditions for each kind
of ending, and simulation between two runs. Each notion comes with a rule for sequences, so
that a proof follows the program text.
-/

namespace Epochs.Lib

/-- A relation that composes along the steps of a run. -/
structure Frame {σ : Type} (relation : σ → σ → Prop) : Prop where
  refl : ∀ state, relation state state
  trans : ∀ {first second third}, relation first second → relation second third
    → relation first third

namespace Run

variable {ε σ τ α β γ : Type}

-- Properties that sequences keep

/-- A property of runs that those have which end at once, and that sequences keep. -/
structure Closed (kept : ∀ {ε α : Type}, Run ε σ α → Prop) : Prop where
  pure {ε α : Type} (value : α) : kept (Pure.pure value : Run ε σ α)
  throw {ε α : Type} (fault : Fault ε) : kept (MonadExcept.throw fault : Run ε σ α)
  bind {ε α β : Type} {run : Run ε σ α} {next : α → Run ε σ β} (first : kept run)
    (second : ∀ value, kept (next value)) : kept (run >>= next)
  mapErr {ε δ α : Type} {run : Run ε σ α} (here : kept run) (translate : ε → δ)
    : kept (Run.mapErr translate run)

section Closed

variable {kept : ∀ {ε α : Type}, Run ε σ α → Prop} (closed : Closed kept)
include closed

theorem Closed.ofExcept (result : Except ε α)
    : kept (Run.ofExcept result : Run ε σ α) := by
  cases result with
  | ok value => exact closed.pure value
  | error error => exact closed.throw (.err error)

theorem Closed.index (items : List α) (position : Nat)
    : kept (Run.index items position : Run ε σ α) := by
  unfold Run.index
  split
  · exact closed.pure _
  · exact closed.throw _

theorem Closed.foldlM {step : β → α → Run ε σ β}
    (each : ∀ accumulated item, kept (step accumulated item)) (items : List α) (start : β)
    : kept (items.foldlM step start) := by
  induction items generalizing start with
  | nil => exact closed.pure start
  | cons item rest ih =>
    rw [List.foldlM_cons]
    exact closed.bind (each start item) ih

end Closed

-- Relations every ending keeps

/-- However the run ends, the state it leaves is related to the one it started from. -/
def Within (relation : σ → σ → Prop) (run : Run ε σ α) : Prop :=
  ∀ state, relation state (stateOf (run state))

section Within

variable {relation : σ → σ → Prop} {run : Run ε σ α}

theorem Within.of_ok (within : Within relation run) {state last : σ} {value : α}
    (ran : run state = .ok value last)
    : relation state last := by
  have kept := within state
  rwa [ran] at kept

theorem Within.map (within : Within relation run) {change : α → β}
    : Within relation (change <$> run) := by
  intro state
  have kept := within state
  rw [map_apply]
  cases outcome : run state <;> rwa [outcome] at kept

theorem Within.mapErr {δ : Type} {run : Run ε σ α}
    (within : Within relation run) (translate : ε → δ)
    : Within relation (Run.mapErr translate run) := by
  intro state
  have kept := within state
  unfold Run.mapErr
  cases ran : run state with
  | ok value next =>
    rw [ran] at kept
    exact kept
  | error fault next =>
    rw [ran] at kept
    cases fault <;> exact kept

variable (frame : Frame relation)
include frame

theorem Within.pure (value : α) : Within relation (Pure.pure value : Run ε σ α) :=
  fun state => frame.refl state

theorem Within.throw (fault : Fault ε) : Within relation (MonadExcept.throw fault : Run ε σ α) :=
  fun state => frame.refl state

theorem Within.get : Within relation (MonadStateOf.get : Run ε σ σ) :=
  fun state => frame.refl state

theorem Within.bind {run : Run ε σ α} {next : α → Run ε σ β} (first : Within relation run)
    (second : ∀ value, Within relation (next value))
    : Within relation (run >>= next) := by
  intro state
  rw [bind_apply]
  have before := first state
  cases outcome : run state with
  | ok value middle =>
    rw [outcome] at before
    exact frame.trans before (second value middle)
  | error fault middle =>
    rw [outcome] at before
    exact before

theorem Closed.within : Closed fun {ε α} => @Within ε σ α relation where
  pure := Within.pure frame
  throw := Within.throw frame
  bind := Within.bind frame
  mapErr := Within.mapErr

theorem Within.ofExcept (result : Except ε α)
    : Within relation (Run.ofExcept result : Run ε σ α) :=
  (Closed.within frame).ofExcept result

theorem Within.index (items : List α) (position : Nat)
    : Within relation (Run.index items position : Run ε σ α) :=
  (Closed.within frame).index items position

theorem Within.foldlM {step : β → α → Run ε σ β}
    (each : ∀ accumulated item, Within relation (step accumulated item)) (items : List α)
    (start : β)
    : Within relation (items.foldlM step start) :=
  (Closed.within frame).foldlM each items start

theorem Within.setAt (items : List α) (position : Nat) (item : α)
    : Within relation (Run.setAt items position item : Run ε σ (List α)) := by
  unfold Run.setAt
  split
  · exact Within.pure frame _
  · exact Within.throw frame _

theorem Within.insertAt (items : List α) (position : Nat) (item : α)
    : Within relation (Run.insertAt items position item : Run ε σ (List α)) := by
  unfold Run.insertAt
  split
  · exact Within.pure frame _
  · exact Within.throw frame _

theorem Within.removeAt (items : List α) (position : Nat)
    : Within relation (Run.removeAt items position : Run ε σ (List α)) := by
  unfold Run.removeAt
  split
  · exact Within.pure frame _
  · exact Within.throw frame _

theorem Within.throw_bind (fault : Fault ε) (next : α → Run ε σ β)
    : Within relation ((MonadExcept.throw fault : Run ε σ α) >>= next) :=
  fun state => frame.refl state

variable {items : List α} {position : Nat} {next : List α → Run ε σ β}

theorem Within.setAt_bind {item : α}
    (inside : Within relation (next (items.set position item)))
    : Within relation (Run.setAt items position item >>= next) := by
  unfold Run.setAt
  split
  · rwa [pure_bind]
  · exact Within.throw_bind frame _ _

theorem Within.insertAt_bind {item : α}
    (inside : Within relation (next (items.insertIdx position item)))
    : Within relation (Run.insertAt items position item >>= next) := by
  unfold Run.insertAt
  split
  · rwa [pure_bind]
  · exact Within.throw_bind frame _ _

theorem Within.removeAt_bind
    (inside : Within relation (next (items.eraseIdx position)))
    : Within relation (Run.removeAt items position >>= next) := by
  unfold Run.removeAt
  split
  · rwa [pure_bind]
  · exact Within.throw_bind frame _ _

theorem Within.mapM {call : γ → Run ε σ α} (each : ∀ item, Within relation (call item))
    (items : List γ)
    : Within relation (items.mapM call) := by
  induction items with
  | nil => exact Within.pure frame []
  | cons item rest ih =>
    rw [List.mapM_cons]
    exact Within.bind frame (each item) fun _ => Within.bind frame ih fun _ =>
      Within.pure frame _

end Within

variable {relation : σ → σ → Prop}

/-- A run that first looks at the state. -/
theorem Within.get_bind {next : σ → Run ε σ α}
    (each : ∀ state, relation state (stateOf (next state state)))
    : Within relation (MonadStateOf.get >>= next) := by
  intro state
  rw [bind_apply]
  exact each state

/-- A run on one component, when changes of that component are kept. -/
theorem Within.zoom {whole : τ → τ → Prop} {get : τ → σ}
    {set : τ → σ → τ} {run : Run ε σ α} (within : Within relation run)
    (lifts : ∀ state part, relation (get state) part → whole state (set state part))
    : Within whole (Run.zoom get set run) := by
  intro state
  have kept := within (get state)
  unfold Run.zoom
  cases ran : run (get state) with
  | ok value part =>
    rw [ran] at kept
    exact lifts state part kept
  | error fault part =>
    rw [ran] at kept
    exact lifts state part kept

theorem Within.observe {run : Run ε σ α}
    (within : Within relation run)
    : Within relation (Run.observe run) := by
  intro state
  have kept := within state
  unfold Run.observe
  cases ran : run state with
  | ok value next =>
    rw [ran] at kept
    exact kept
  | error fault next =>
    rw [ran] at kept
    cases fault <;> exact kept

-- Relations every fault keeps

/-- When the run stops with a fault, the state it leaves is related to the one it started from. -/
def Halts (relation : σ → σ → Prop) (run : Run ε σ α) : Prop :=
  ∀ state reason last, run state = .error reason last → relation state last

theorem Halts.bind (frame : Frame relation) {run : Run ε σ α}
    {next : α → Run ε σ β} (first : Within relation run)
    (second : ∀ value, Halts relation (next value))
    : Halts relation (run >>= next) := by
  intro state reason last ran
  have kept := first state
  rw [bind_apply] at ran
  cases outcome : run state with
  | ok value middle =>
    rw [outcome] at kept ran
    exact frame.trans kept (second value middle reason last ran)
  | error fault middle =>
    rw [outcome] at kept ran
    cases ran
    exact kept

theorem Halts.bind_pure {run : Run ε σ α} (halts : Halts relation run)
    (result : α → β)
    : Halts relation (run >>= fun value => Pure.pure (result value)) := by
  intro state reason last ran
  rw [bind_apply] at ran
  cases outcome : run state with
  | ok value middle =>
    rw [outcome] at ran
    cases ran
  | error fault middle =>
    rw [outcome] at ran
    cases ran
    exact halts state reason last outcome

theorem Halts.mapErr {δ : Type} {run : Run ε σ α}
    (halts : Halts relation run) (translate : ε → δ)
    : Halts relation (Run.mapErr translate run) := by
  intro state reason last ran
  unfold Run.mapErr at ran
  cases outcome : run state with
  | ok value next =>
    rw [outcome] at ran
    cases ran
  | error fault next =>
    rw [outcome] at ran
    have kept := halts state fault next outcome
    cases fault <;> cases ran <;> exact kept

-- Sequences of calls

section MapM

variable {call : γ → Run ε σ α} {item : γ} {rest : List γ} {state next : σ} {reply : α}

/-- A sequence whose first call returns ends where its other calls end. -/
theorem stateOf_mapM_cons (ran : call item state = .ok reply next)
    : stateOf ((item :: rest).mapM call state) = stateOf (rest.mapM call next) := by
  rw [List.mapM_cons, bind_of_ok ran, bind_apply]
  cases rest.mapM call next <;> rfl

theorem mapM_cons_of_ok {replies : List α} {last : σ} (ran : call item state = .ok reply next)
    (later : rest.mapM call next = .ok replies last)
    : (item :: rest).mapM call state = .ok (reply :: replies) last := by
  rw [List.mapM_cons, bind_of_ok ran, bind_of_ok later]
  rfl

theorem stateOf_mapM_singleton (call : γ → Run ε σ α) (item : γ) (state : σ)
    : stateOf ([item].mapM call state) = stateOf (call item state) := by
  rw [List.mapM_cons, bind_apply]
  cases call item state <;> rfl

/-- Each call is made in a state that meets the condition for it. -/
def Each (call : γ → Run ε σ α) (condition : σ → γ → Prop) (calls : List γ) (state : σ) : Prop :=
  ∀ front item back, calls = front ++ item :: back
    → condition (stateOf (front.mapM call state)) item

theorem Each.head {condition : σ → γ → Prop} (each : Each call condition (item :: rest) state)
    : condition state item :=
  each [] item rest rfl

theorem each_cons {condition : σ → γ → Prop} (ran : call item state = .ok reply next)
    : Each call condition (item :: rest) state
      ↔ condition state item ∧ Each call condition rest next := by
  constructor
  · intro each
    refine ⟨each.head, fun front other back split => ?_⟩
    rw [← stateOf_mapM_cons ran]
    exact each (item :: front) other back (by rw [split, List.cons_append])
  · rintro ⟨first, each⟩ front other back split
    cases front with
    | nil =>
      obtain ⟨rfl, rfl⟩ := List.cons.inj split
      exact first
    | cons head front =>
      obtain ⟨rfl, later⟩ := List.cons.inj split
      rw [stateOf_mapM_cons ran]
      exact each front other back later

/-- Calls that keep an invariant under a condition, and break what it gives without it: every
state of the run is good exactly when each call meets its condition.
-/
theorem good_iff_each {invariant good : σ → Prop} {condition : σ → γ → Prop}
    (keeps : ∀ state item, invariant state → condition state item
      → ∃ reply next, call item state = .ok reply next ∧ invariant next)
    (gives : ∀ state, invariant state → good state)
    (breaks : ∀ state item, invariant state → ¬ condition state item
      → ¬ good (stateOf (call item state)))
    (start : invariant state) (calls : List γ)
    : (∀ front, front <+: calls → good (stateOf (front.mapM call state)))
      ↔ Each call condition calls state := by
  induction calls generalizing state with
  | nil =>
    refine ⟨fun _ front item back split => by simp at split, fun _ front within => ?_⟩
    rw [List.prefix_nil.mp within]
    exact gives state start
  | cons item rest ih =>
    constructor
    · intro all
      have met : condition state item := by
        by_contra unmet
        refine breaks state item start unmet ?_
        rw [← stateOf_mapM_singleton]
        exact all [item] (by simp)
      obtain ⟨reply, next, ran, kept⟩ := keeps state item start met
      refine (each_cons ran).mpr ⟨met, (ih kept).mp fun front within => ?_⟩
      rw [← stateOf_mapM_cons ran]
      exact all (item :: front) (by simpa using within)
    · intro each front within
      have met := each.head
      obtain ⟨reply, next, ran, kept⟩ := keeps state item start met
      cases front with
      | nil => exact gives state start
      | cons head front =>
        obtain ⟨rfl, later⟩ := List.cons_prefix_cons.mp within
        rw [stateOf_mapM_cons ran]
        exact (ih kept).mpr ((each_cons ran).mp each).2 front later

/-- Calls that leave the state each return in the state at the start. -/
theorem mapM_of_same (same : ∀ item reply next, call item state = .ok reply next → next = state)
    {items : List γ} {replies : List α} (ran : items.mapM call state = .ok replies next)
    : replies.length = items.length
      ∧ ∀ reply ∈ replies, ∃ item ∈ items, call item state = .ok reply state := by
  induction items generalizing replies with
  | nil =>
    cases ran
    exact ⟨rfl, by simp⟩
  | cons item rest ih =>
    rw [List.mapM_cons] at ran
    obtain ⟨first, middle, called, onward⟩ := bind_eq_ok.mp ran
    obtain ⟨others, final, later, done⟩ := bind_eq_ok.mp onward
    cases done
    have still := same item first middle called
    rw [still] at called later
    obtain ⟨length, each⟩ := ih later
    refine ⟨by simp [length], fun reply member => ?_⟩
    rcases List.mem_cons.mp member with rfl | inside
    · exact ⟨item, List.mem_cons_self, called⟩
    · obtain ⟨other, inRest, here⟩ := each reply inside
      exact ⟨other, List.mem_cons_of_mem _ inRest, here⟩

end MapM

-- Postconditions

/-- A result meets a postcondition for values and one for faults. -/
def Meets (post : α → σ → Prop) (fault : Fault ε → σ → Prop)
    : EStateM.Result (Fault ε) σ α → Prop
  | .ok value state => post value state
  | .error reason state => fault reason state

section Meets

variable {post : α → σ → Prop} {fault : Fault ε → σ → Prop} {state : σ}

@[simp]
theorem meets_ok (value : α)
    : Meets post fault (.ok value state) ↔ post value state := Iff.rfl

@[simp]
theorem meets_error (reason : Fault ε)
    : Meets post fault (.error reason state) ↔ fault reason state := Iff.rfl

theorem Meets.of_ok {result : EStateM.Result (Fault ε) σ α} (meets : Meets post fault result)
    {value : α} (ran : result = .ok value state)
    : post value state := by
  rwa [ran] at meets

theorem Meets.of_error {result : EStateM.Result (Fault ε) σ α} (meets : Meets post fault result)
    {reason : Fault ε} (failed : result = .error reason state)
    : fault reason state := by
  rwa [failed] at meets

theorem Meets.map {run : Run ε σ α} {change : α → β} {last : β → σ → Prop}
    (meets : Meets (fun value next => last (change value) next) fault (run state))
    : Meets last fault ((change <$> run) state) := by
  rw [map_apply]
  cases outcome : run state with
  | ok value next =>
    rw [outcome] at meets
    exact meets
  | error reason next =>
    rw [outcome] at meets
    exact meets

/-- A sequence meets a postcondition if its second part does, from every ending of the first
that returns.
-/
theorem Meets.bind {run : Run ε σ α} {next : α → Run ε σ β} {last : β → σ → Prop}
    (first : Meets post fault (run state))
    (second : ∀ value middle,
      run state = .ok value middle → post value middle → Meets last fault (next value middle))
    : Meets last fault ((run >>= next) state) := by
  rw [bind_apply]
  cases outcome : run state with
  | ok value middle =>
    rw [outcome] at first
    exact second value middle outcome first
  | error reason middle =>
    rw [outcome] at first
    exact first

theorem Meets.imp {weaker : α → σ → Prop} {weakerFault : Fault ε → σ → Prop}
    {result : EStateM.Result (Fault ε) σ α} (meets : Meets post fault result)
    (value : ∀ value state, post value state → weaker value state)
    (reason : ∀ reason state, fault reason state → weakerFault reason state)
    : Meets weaker weakerFault result := by
  cases result with
  | ok result last => exact value result last meets
  | error why last => exact reason why last meets

/-- A sequence that starts with a run on one component of the state. -/
theorem Meets.bind_zoom {get : τ → σ} {set : τ → σ → τ} {run : Run ε σ α} {next : α → Run ε τ β}
    {whole : τ} {last : β → τ → Prop} {stop : Fault ε → τ → Prop}
    (first : Meets post fault (run (get whole)))
    (faults : ∀ reason part, fault reason part → stop reason (set whole part))
    (second : ∀ value part, post value part → Meets last stop (next value (set whole part)))
    : Meets last stop ((Run.zoom get set run >>= next) whole) := by
  rw [bind_apply, Run.zoom]
  cases outcome : run (get whole) with
  | ok value part =>
    rw [outcome] at first
    exact second value part first
  | error reason part =>
    rw [outcome] at first
    exact faults reason part first

/-- A caller that looks at the error of a run sees either of its endings. -/
theorem Meets.observe {run : Run ε σ α} {last : Except ε α → σ → Prop}
    {stop : Fault ε → σ → Prop} (meets : Meets post fault (run state))
    (value : ∀ value next, post value next → last (.ok value) next)
    (error : ∀ error next, fault (.err error) next → last (.error error) next)
    (other : ∀ reason next, (∀ error, reason ≠ .err error) → fault reason next → stop reason next)
    : Meets last stop (Run.observe run state) := by
  unfold Run.observe
  cases outcome : run state with
  | ok result next =>
    rw [outcome] at meets
    exact value result next meets
  | error reason next =>
    rw [outcome] at meets
    cases reason with
    | err why => exact error why next meets
    | panic => exact other _ next (by simp) meets
    | killed => exact other _ next (by simp) meets
    | fuel => exact other _ next (by simp) meets

/-- A run that cannot fail returns. -/
theorem Meets.returns {result : EStateM.Result (Fault ε) σ α} (meets : Meets post fault result)
    (safe : ∀ reason state, ¬ fault reason state)
    : ∃ value state, result = .ok value state ∧ post value state := by
  cases result with
  | ok value last => exact ⟨value, last, rfl, meets⟩
  | error reason last => exact absurd meets (safe reason last)

end Meets

-- Simulation

/-- Whenever the first run returns, the second returns the same value from every related
state, and the states they leave are related again.
-/
def Follows (relation : σ → τ → Prop) (run : Run ε σ α) (other : Run ε τ α) : Prop :=
  ∀ state image value last,
    relation state image
    → run state = .ok value last
    → ∃ end_, other image = .ok value end_ ∧ relation last end_

section Follows

variable {relation : σ → τ → Prop}

theorem Follows.pure (value : α)
    : Follows relation (Pure.pure value : Run ε σ α) (Pure.pure value : Run ε τ α) := by
  intro state image result last related ran
  cases ran
  exact ⟨image, rfl, related⟩

theorem Follows.throw (reason : Fault ε) (other : Run ε τ α)
    : Follows relation (MonadExcept.throw reason : Run ε σ α) other := by
  intro state image result last related ran
  cases ran

theorem Follows.bind {run : Run ε σ α} {other : Run ε τ α} {next : α → Run ε σ β}
    {otherNext : α → Run ε τ β} (first : Follows relation run other)
    (second : ∀ value, Follows relation (next value) (otherNext value))
    : Follows relation (run >>= next) (other >>= otherNext) := by
  intro state image result last related ran
  obtain ⟨value, middle, ranFirst, ranNext⟩ := bind_eq_ok.mp ran
  obtain ⟨middle', sameFirst, stillRelated⟩ := first _ _ _ _ related ranFirst
  obtain ⟨last', sameNext, finally_⟩ := second value _ _ _ _ stillRelated ranNext
  exact ⟨last', bind_eq_ok.mpr ⟨value, middle', sameFirst, sameNext⟩, finally_⟩

theorem Follows.foldlM {step : β → α → Run ε σ β} {other : β → α → Run ε τ β}
    (each : ∀ accumulated item, Follows relation (step accumulated item) (other accumulated item))
    (items : List α) (start : β)
    : Follows relation (items.foldlM step start) (items.foldlM other start) := by
  induction items generalizing start with
  | nil => exact Follows.pure start
  | cons item rest ih =>
    rw [List.foldlM_cons, List.foldlM_cons]
    exact Follows.bind (each start item) ih

theorem Follows.mapErr {δ : Type} {run : Run ε σ α} {other : Run ε τ α}
    (follows : Follows relation run other) (translate : ε → δ)
    : Follows relation (Run.mapErr translate run) (Run.mapErr translate other) := by
  intro state image value last related ran
  obtain ⟨end_, same, still⟩ := follows _ _ _ _ related (mapErr_eq_ok.mp ran)
  exact ⟨end_, mapErr_eq_ok.mpr same, still⟩

theorem Closed.follows (relation : σ → σ → Prop)
    : Closed fun {ε α} (run : Run ε σ α) => Follows relation run run where
  pure := Follows.pure
  throw fault := Follows.throw fault _
  bind := Follows.bind
  mapErr := Follows.mapErr

/-- A run follows itself. -/
theorem Follows.same (run : Run ε σ α) : Follows Eq run run := by
  intro state image value last related ran
  subst related
  exact ⟨last, ran, rfl⟩

end Follows

-- Runs that agree

section Agrees

variable {δ γ : Type}

/-- From a state, two runs both fail, or return related values in the same state. -/
def AgreesAt (related : α → β → Prop) (run : Run ε σ α) (other : Run δ σ β) (state : σ) : Prop :=
  match run state, other state with
  | .ok value last, .ok value' last' => related value value' ∧ last = last'
  | .error _ _, .error _ _ => True
  | _, _ => False

def Agrees (related : α → β → Prop) (run : Run ε σ α) (other : Run δ σ β) : Prop :=
  ∀ state, AgreesAt related run other state

/-- What follows has to agree only where the first run goes. -/
theorem AgreesAt.bind {related : α → β → Prop} {α' β' : Type} {related' : α' → β' → Prop}
    {run : Run ε σ α} {other : Run δ σ β} {next : α → Run ε σ α'} {next' : β → Run δ σ β'} {state : σ}
    (first : AgreesAt related run other state)
    (second : ∀ value value' last, run state = .ok value last → related value value'
      → AgreesAt related' (next value) (next' value') last)
    : AgreesAt related' (run >>= next) (other >>= next') state := by
  unfold AgreesAt at first ⊢
  rw [Run.bind_apply, Run.bind_apply]
  cases ran : run state <;> cases ran' : other state <;> simp only [ran, ran'] at first ⊢
  obtain ⟨here, rfl⟩ := first
  exact second _ _ _ ran here

namespace Agrees

variable {related : α → β → Prop}

theorem pure {value : α} {value' : β} (here : related value value')
    : Agrees related (Pure.pure value : Run ε σ α) (Pure.pure value' : Run δ σ β) :=
  fun _ => ⟨here, rfl⟩

theorem throw (fault : Fault ε) (fault' : Fault δ)
    : Agrees related (MonadExcept.throw fault : Run ε σ α) (MonadExcept.throw fault' : Run δ σ β) :=
  fun _ => trivial

theorem bind {α' β' : Type} {related' : α' → β' → Prop} {run : Run ε σ α} {other : Run δ σ β}
    {next : α → Run ε σ α'} {next' : β → Run δ σ β'} (first : Agrees related run other)
    (second : ∀ value value', related value value' → Agrees related' (next value) (next' value'))
    : Agrees related' (run >>= next) (other >>= next') :=
  fun state => (first state).bind fun value value' last _ here => second value value' here last

theorem same (run : Run ε σ α) : Agrees Eq run run := by
  intro state
  unfold AgreesAt
  cases run state with
  | ok value last => exact ⟨rfl, rfl⟩
  | error fault last => trivial

theorem ofExcept {result : Except ε α} {other : Except δ α}
    (same : other.toOption = result.toOption)
    : Agrees Eq (Run.ofExcept result : Run ε σ α) (Run.ofExcept other : Run δ σ α) := by
  cases result with
  | ok value =>
    cases other with
    | ok value' =>
      cases same
      exact .pure rfl
    | error error => cases same
  | error error =>
    cases other with
    | ok value' => cases same
    | error error' => exact .throw _ _

theorem index (change : α → α) (items : List α) (position : Nat)
    : Agrees (fun item item' => items[position]? = some item ∧ item' = change item)
        (Run.index items position : Run ε σ α) (Run.index (items.map change) position : Run δ σ α) := by
  unfold Run.index
  rw [List.getElem?_map]
  cases found : items[position]? with
  | none => exact .throw _ _
  | some item => exact .pure ⟨rfl, rfl⟩

end Agrees

/-- What is read of the values is the same if it is for all that are related. -/
theorem AgreesAt.map_valueOf {related : α → β → Prop} {run : Run ε σ α} {other : Run δ σ β} {state : σ}
    (agrees : AgreesAt related run other state) {read : α → γ} {read' : β → γ}
    (same : ∀ value value', related value value' → read' value' = read value)
    : (valueOf (other state)).map read' = (valueOf (run state)).map read := by
  unfold AgreesAt at agrees
  cases ran : run state <;> cases ran' : other state <;> simp only [ran, ran'] at agrees
  · exact congrArg some (same _ _ agrees.1)
  · rfl

end Agrees
end Run

theorem toOption_bind {ε α β : Type} (result : Except ε α) (next : α → Except ε β)
    : (result >>= next).toOption = result.toOption.bind fun value => (next value).toOption := by
  cases result <;> rfl

end Epochs.Lib
