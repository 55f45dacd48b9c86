import Mathlib.Algebra.Group.Int.Defs
import Mathlib.Algebra.GroupWithZero.Nat
import Mathlib.Tactic.Common

/-! Stateful runs that can return an error, panic, be killed or exhaust a recursion budget.
The state survives every one of these endings, as memory and files survive a failed call.
-/

namespace Epochs.Lib

/-- How a run ends when it yields no value. Only `err` is a result of the program: `panic`
unwinds it, `killed` stops its process, and `fuel` says the recursion budget was too small.
-/
inductive Fault (ε : Type) where
  | err (error : ε)
  | panic
  | killed
  | fuel
  deriving DecidableEq, Repr

def Fault.map {ε δ : Type} (translate : ε → δ) : Fault ε → Fault δ
  | .err error => .err (translate error)
  | .panic => .panic
  | .killed => .killed
  | .fuel => .fuel

/-- A computation over the state `σ` that keeps the state it reached when it fails. -/
abbrev Run (ε σ α : Type) := EStateM (Fault ε) σ α

/-- A sequence returns exactly when both parts do. -/
theorem except_bind_eq_ok {ε α β : Type} {result : Except ε α} {next : α → Except ε β} {last : β}
    : result >>= next = .ok last ↔ ∃ value, result = .ok value ∧ next value = .ok last := by
  cases result <;> simp [bind, Except.bind]

namespace Run

variable {ε σ τ α β : Type}

def stateOf : EStateM.Result (Fault ε) σ α → σ
  | .ok _ state => state
  | .error _ state => state

@[simp]
theorem stateOf_ok (value : α) (state : σ)
    : stateOf (.ok value state : EStateM.Result (Fault ε) σ α) = state := rfl

@[simp]
theorem stateOf_error (fault : Fault ε) (state : σ)
    : stateOf (.error fault state : EStateM.Result (Fault ε) σ α) = state := rfl

def valueOf : EStateM.Result (Fault ε) σ α → Option α
  | .ok value _ => some value
  | .error _ _ => none

def outcomeOf : EStateM.Result (Fault ε) σ α → Except (Fault ε) α
  | .ok value _ => .ok value
  | .error fault _ => .error fault

theorem eq_ok_of_valueOf {result : EStateM.Result (Fault ε) σ α} {value : α}
    (returned : valueOf result = some value)
    : result = .ok value (stateOf result) := by
  cases result with
  | ok found state =>
    cases returned
    rfl
  | error fault state => cases returned

theorem exists_eq_ok {result : EStateM.Result (Fault ε) σ α} (returned : (valueOf result).isSome)
    : ∃ value state, result = .ok value state := by
  obtain ⟨value, found⟩ := Option.isSome_iff_exists.mp returned
  exact ⟨value, _, eq_ok_of_valueOf found⟩

def errorOf : EStateM.Result (Fault ε) σ α → Option ε
  | .error (.err error) _ => some error
  | _ => none

theorem eq_error_of_errorOf {result : EStateM.Result (Fault ε) σ α} {error : ε}
    (failed : errorOf result = some error)
    : result = .error (.err error) (stateOf result) := by
  cases result with
  | ok value state => cases failed
  | error fault state =>
    cases fault with
    | err found =>
      cases failed
      rfl
    | panic | killed | fuel => cases failed

def fail (error : ε) : Run ε σ α := throw (.err error)

/-- A pure partial result, as the `?` operator propagates it. -/
def ofExcept : Except ε α → Run ε σ α
  | .ok value => pure value
  | .error error => fail error

def ofOutcome : Except (Fault ε) α → Run ε σ α
  | .ok value => pure value
  | .error fault => throw fault

/-- Run on one component of a larger state and put that component back. -/
def zoom (get : τ → σ) (set : τ → σ → τ) (run : Run ε σ α) : Run ε τ α := fun whole =>
  match run (get whole) with
  | .ok value part => .ok value (set whole part)
  | .error fault part => .error fault (set whole part)

def mapErr {δ : Type} (translate : ε → δ) (run : Run ε σ α) : Run δ σ α := fun state =>
  match run state with
  | .ok value next => .ok value next
  | .error (.err error) next => .error (.err (translate error)) next
  | .error .panic next => .error .panic next
  | .error .killed next => .error .killed next
  | .error .fuel next => .error .fuel next

/-- Make the program's error a value, as a caller that looks at a `Result` does. -/
def observe (run : Run ε σ α) : Run ε σ (Except ε α) := fun state =>
  match run state with
  | .ok value next => .ok (.ok value) next
  | .error (.err error) next => .ok (.error error) next
  | .error .panic next => .error .panic next
  | .error .killed next => .error .killed next
  | .error .fuel next => .error .fuel next

def index (items : List α) (position : Nat) : Run ε σ α :=
  match items[position]? with
  | some item => pure item
  | none => throw .panic

def setAt (items : List α) (position : Nat) (item : α) : Run ε σ (List α) :=
  if position < items.length then pure (items.set position item) else throw .panic

def insertAt (items : List α) (position : Nat) (item : α) : Run ε σ (List α) :=
  if position ≤ items.length then pure (items.insertIdx position item) else throw .panic

def removeAt (items : List α) (position : Nat) : Run ε σ (List α) :=
  if position < items.length then pure (items.eraseIdx position) else throw .panic

/-- Evaluation of a sequence, without unfolding the monad instance. -/
theorem bind_apply (run : Run ε σ α) (next : α → Run ε σ β) (state : σ)
    : (run >>= next) state
      = match run state with
        | .ok value state => next value state
        | .error fault state => .error fault state := by
  cases outcome : run state <;> simp only [bind, EStateM.bind, outcome]

theorem map_apply (change : α → β) (run : Run ε σ α) (state : σ)
    : (change <$> run) state
      = match run state with
        | .ok value state => .ok (change value) state
        | .error fault state => .error fault state := by
  cases outcome : run state <;> simp only [Functor.map, EStateM.map, outcome]

@[simp]
theorem pure_apply (value : α) (state : σ)
    : (pure value : Run ε σ α) state = .ok value state := rfl

@[simp]
theorem throw_apply (fault : Fault ε) (state : σ)
    : (throw fault : Run ε σ α) state = .error fault state := rfl

@[simp]
theorem fail_apply (error : ε) (state : σ)
    : (fail error : Run ε σ α) state = .error (.err error) state := rfl

@[simp]
theorem get_apply (state : σ) : (get : Run ε σ σ) state = .ok state state := rfl

/-- A sequence that first reads the state. -/
theorem get_bind_apply (next : σ → Run ε σ α) (state : σ)
    : ((get : Run ε σ σ) >>= next) state = next state state := rfl

@[simp]
theorem set_apply (next state : σ) : (set next : Run ε σ PUnit) state = .ok ⟨⟩ next := rfl

@[simp]
theorem modify_apply (change : σ → σ) (state : σ)
    : (modify change : Run ε σ PUnit) state = .ok ⟨⟩ (change state) := rfl

@[simp]
theorem ofExcept_ok (value : α) (state : σ)
    : (ofExcept (.ok value) : Run ε σ α) state = .ok value state := rfl

@[simp]
theorem ofExcept_error (error : ε) (state : σ)
    : (ofExcept (.error error) : Run ε σ α) state = .error (.err error) state := rfl

@[simp]
theorem ofOutcome_ok (value : α) (state : σ)
    : (ofOutcome (.ok value) : Run ε σ α) state = .ok value state := rfl

@[simp]
theorem ofOutcome_error (fault : Fault ε) (state : σ)
    : (ofOutcome (.error fault) : Run ε σ α) state = .error fault state := rfl

@[simp]
theorem outcomeOf_ofExcept (result : Except ε α) (first second : σ)
    : outcomeOf ((ofExcept result : Run ε σ α) first)
      = outcomeOf ((ofExcept result : Run ε σ α) second) := by
  cases result <;> rfl

@[simp]
theorem stateOf_ofExcept (result : Except ε α) (state : σ)
    : stateOf ((ofExcept result : Run ε σ α) state) = state := by
  cases result <;> rfl

theorem mapErr_apply {δ : Type} (translate : ε → δ) (run : Run ε σ α) (state : σ)
    : mapErr translate run state
      = match run state with
        | .ok value next => .ok value next
        | .error fault next => .error (fault.map translate) next := by
  unfold mapErr
  cases run state with
  | ok value next => rfl
  | error fault next => cases fault <;> rfl

variable {run : Run ε σ α} {state next : σ} {value : α}

theorem mapErr_eq_ok {δ : Type} {translate : ε → δ}
    : mapErr translate run state = .ok value next ↔ run state = .ok value next := by
  rw [mapErr_apply]
  cases run state <;> simp

theorem zoom_eq_ok {get : τ → σ} {set : τ → σ → τ} {whole last : τ}
    : zoom get set run whole = .ok value last
      ↔ ∃ part, run (get whole) = .ok value part ∧ set whole part = last := by
  unfold zoom
  cases run (get whole) <;> simp [and_assoc]

theorem observe_of_ok
    (ran : run state = .ok value next)
    : observe run state = .ok (.ok value) next := by
  simp only [observe, ran]

theorem observe_of_err {error : ε}
    (failed : run state = .error (.err error) next)
    : observe run state = .ok (.error error) next := by
  simp only [observe, failed]

theorem observe_eq_ok_ok
    : observe run state = .ok (.ok value) next ↔ run state = .ok value next := by
  unfold observe
  split <;> rename_i ran <;> simp [ran]

theorem stateOf_observe (run : Run ε σ α) (state : σ)
    : stateOf (observe run state) = stateOf (run state) := by
  unfold observe
  split <;> rename_i ran <;> simp [ran]

variable {items : List α} {position : Nat}

theorem index_of_some {item : α}
    (found : items[position]? = some item) (state : σ)
    : (index items position : Run ε σ α) state = .ok item state := by
  simp [index, found]

theorem index_eq_ok {item : α}
    : (index items position : Run ε σ α) state = .ok item next
      ↔ items[position]? = some item ∧ state = next := by
  unfold index
  cases items[position]? <;> simp

theorem setAt_of_lt (inside : position < items.length)
    (item : α) (state : σ)
    : (setAt items position item : Run ε σ (List α)) state = .ok (items.set position item) state := by
  simp [setAt, inside]

theorem insertAt_of_le (inside : position ≤ items.length)
    (item : α) (state : σ)
    : (insertAt items position item : Run ε σ (List α)) state
      = .ok (items.insertIdx position item) state := by
  simp [insertAt, inside]

theorem removeAt_of_lt (inside : position < items.length)
    (state : σ)
    : (removeAt items position : Run ε σ (List α)) state
      = .ok (items.eraseIdx position) state := by
  simp [removeAt, inside]

/-- A sequence whose first part returns continues from the state that part reached. -/
theorem bind_of_ok {next : α → Run ε σ β} {middle : σ}
    (first : run state = .ok value middle)
    : (run >>= next) state = next value middle := by
  rw [bind_apply, first]

/-- A sequence whose first part fails stops there, in the state that part reached. -/
theorem bind_of_error {next : α → Run ε σ β} {middle : σ}
    {fault : Fault ε} (first : run state = .error fault middle)
    : (run >>= next) state = .error fault middle := by
  rw [bind_apply, first]

/-- A sequence returns exactly when both of its parts return. -/
theorem bind_eq_ok {next : α → Run ε σ β} {last : σ} {result : β}
    : (run >>= next) state = .ok result last
      ↔ ∃ value middle, run state = .ok value middle ∧ next value middle = .ok result last := by
  rw [bind_apply]
  cases first : run state with
  | ok value middle => simp
  | error fault middle => simp

theorem stateOf_map (change : α → β) (run : Run ε σ α) (state : σ)
    : stateOf ((change <$> run) state) = stateOf (run state) := by
  rw [map_apply]
  cases run state <;> rfl

theorem map_eq_ok {change : α → β} {last : σ} {result : β}
    : (change <$> run) state = .ok result last
      ↔ ∃ value, run state = .ok value last ∧ change value = result := by
  rw [map_apply]
  cases run state with
  | ok value next => simp [and_comm]
  | error fault next => simp

end Run
end Epochs.Lib
