import Epochs.Ql.Engine
import Epochs.Server.Epx

/-! The EPX server: connections that answer one request after the other, over one store behind a
lock. However their steps and the failures of their sockets interleave, the requests are dispatched
as if one client had sent them in the order of the lock, and each client is answered in the order
of its requests.
-/

namespace Epochs.Server

open Lib DiskStore Run

-- Requests

/-- A request. Of the parameters only members that are strings are ever looked at. -/
structure Request where
  id : UInt64
  method : String
  params : AssocMap String String

/-- The `result` of a response. -/
inductive Answer where
  | hello
  | results (results : List Ql.ExecResult)
  | branches (tips : List (String × String))
  | object (hash type : String) (payloadBase64 : List Char) (len : Nat)

/-- The `error` of a response, before it is rendered as text. -/
inductive Refusal where
  | text (message : String)
  | exec (error : Ql.ExecError)
  | store (error : EpochsError)

def Request.param (req : Request) (key : String) : String := (AssocMap.lookup key req.params).getD ""

structure Response where
  id : UInt64
  outcome : Except Refusal Answer

class SerdeJson where
  fromSlice : Bytes → Except String Request
  toVec : Response → Except String Bytes

def listBranchTips : Run EpochsError DiskStore (List (String × String)) := do
  let names ← listBranches
  names.mapM fun name => do
    let tip ← getBranch name
    pure (name, tip.target.toHex)

def recordTypeName : RecordType → String
  | .commit => "commit"
  | .hamtBitmap => "hamt_bitmap"
  | .hamtLeaf => "hamt_leaf"

variable [Blake3]

def getCasObject (hashHex : String) : Run EpochsError DiskStore Answer := do
  let hash ← ofExcept (Hash.fromHex hashHex)
  let (type, payload) ← getObject hash
  pure (.object hash.toHex (recordTypeName type) (base64Encode payload) payload.length)

variable [HashSeed] (fuel : Nat)

def answer (req : Request) : Run Refusal DiskStore Answer :=
  match req.method with
  | "hello" => pure .hello
  | "query" =>
    if req.param "sql" = "" then fail (.text "params.sql required")
    else .results <$> mapErr .exec (Ql.Engine.execute fuel (req.param "sql"))
  | "refs" => .branches <$> mapErr .store listBranchTips
  | "get" =>
    if req.param "hash" = "" then fail (.text "params.hash required")
    else mapErr .store (getCasObject (req.param "hash"))
  | other => fail (.text s!"unknown method '{other}'")

/-- The response to a request. A panic unwinds the task of the connection instead. -/
def dispatch (req : Request) : Run Refusal DiskStore Response := do
  let outcome ← observe (answer fuel req)
  pure { id := req.id, outcome }

/-- Whether a handler takes the lock. That of `get` parses the hash first. -/
def Request.locks (req : Request) : Bool :=
  match req.method with
  | "query" => req.param "sql" ≠ ""
  | "refs" => true
  | "get" => req.param "hash" ≠ "" ∧ (Hash.fromHex (req.param "hash")).isOk
  | _ => false

/-- A handler that does not take the lock leaves the store, and returns. -/
theorem dispatch_of_not_locks {req : Request} (free : req.locks = false) (store : DiskStore)
    : ∃ resp, dispatch fuel req store = .ok resp store := by
  unfold Request.locks at free
  unfold dispatch answer
  split
  · exact ⟨_, rfl⟩
  · next method =>
    rw [method] at free
    rw [if_pos (by simpa using free)]
    exact ⟨_, rfl⟩
  · next method =>
    rw [method] at free
    cases free
  · next method =>
    rw [method] at free
    split
    · exact ⟨_, rfl⟩
    · next given =>
      cases parsed : Hash.fromHex (req.param "hash") with
      | ok hash => simp [given, parsed, Except.isOk, Except.toBool] at free
      | error error =>
        rw [getCasObject, parsed]
        exact ⟨_, rfl⟩
  · exact ⟨_, rfl⟩

-- Connections

/-- Where a connection is: before a frame, before a handler, in a handler that holds the lock, or
before the response.
-/
inductive Phase where
  | reading
  | handling (req : Request)
  | holding (req : Request)
  | writing (resp : Response)
  | closed

/-- A connection: the bytes still to be read from it, and the whole frames written to it. -/
structure Conn where
  input : Bytes
  output : List Bytes
  phase : Phase

/-- The store and the connection that holds its lock. -/
structure Locked where
  store : DiskStore
  holder : Option Nat

variable [SerdeJson]

/-- `handle_conn` up to the next point at which other connections can go on. The lock is released
with its guard, also when the handler panics.
-/
def Conn.step (index : Nat) : Conn → Locked → Conn × Locked
  | ⟨input, output, .reading⟩, locked =>
    match readFrame input with
    | .ok (some body, rest) =>
      match SerdeJson.fromSlice body with
      | .ok req => (⟨rest, output, .handling req⟩, locked)
      | .error _ => (⟨input, output, .closed⟩, locked)
    | _ => (⟨input, output, .closed⟩, locked)
  | ⟨input, output, .handling req⟩, locked =>
    if req.locks then
      if locked.holder = none then
        (⟨input, output, .holding req⟩, { locked with holder := some index })
      else (⟨input, output, .handling req⟩, locked)
    else (⟨input, output, (valueOf (dispatch fuel req locked.store)).elim .closed .writing⟩, locked)
  | ⟨input, output, .holding req⟩, locked =>
    let result := dispatch fuel req locked.store
    (⟨input, output, (valueOf result).elim .closed .writing⟩, ⟨stateOf result, none⟩)
  | ⟨input, output, .writing resp⟩, locked =>
    match SerdeJson.toVec resp >>= writeFrame with
    | .ok frame => (⟨input, output ++ [frame], .reading⟩, locked)
    | .error _ => (⟨input, output, .closed⟩, locked)
  | ⟨input, output, .closed⟩, locked => (⟨input, output, .closed⟩, locked)

/-- The socket fails, which shows when it is read or written. -/
def Conn.fail : Conn → Conn
  | ⟨input, output, .reading⟩ => ⟨input, output, .closed⟩
  | ⟨input, output, .writing _⟩ => ⟨input, output, .closed⟩
  | conn => conn

/-- The connections, numbered as they are accepted, and the store they share. -/
structure State where
  locked : Locked
  conns : Nat → Conn

inductive Turn where
  | task (index : Nat)
  | socket (index : Nat)

def State.step (state : State) : Turn → State
  | .task index =>
    let after := (state.conns index).step fuel index state.locked
    ⟨after.2, Function.update state.conns index after.1⟩
  | .socket index => { state with conns := Function.update state.conns index (state.conns index).fail }

def Conn.Holds (conn : Conn) : Prop := ∃ req, conn.phase = .holding req

/-- The lock is held by the connection whose handler took it, and by no other. -/
def State.Exclusive (state : State) : Prop :=
  ∀ index, state.locked.holder = some index ↔ (state.conns index).Holds

-- One request after the other

/-- Requests with the number of their connection are dispatched one after the other. A request
has no response when its handler panics.
-/
inductive Sequential (start : DiskStore)
    : List (Nat × Request × Option Response) → DiskStore → Prop
  | nil : Sequential start [] start
  | snoc {log store} (earlier : Sequential start log store) (index : Nat) (req : Request)
    : Sequential start (log ++ [(index, req, valueOf (dispatch fuel req store))])
        (stateOf (dispatch fuel req store))

/-- Requests are read from what a client sends, which leaves the rest. -/
inductive Reads (sent : Bytes) : List Request → Bytes → Prop
  | nil : Reads sent [] sent
  | snoc {reqs middle body rest req} (earlier : Reads sent reqs middle)
    (framed : readFrame middle = .ok (some body, rest))
    (parsed : SerdeJson.fromSlice body = .ok req)
    : Reads sent (reqs ++ [req]) rest

/-- A connection has dispatched the first requests of its client and written their responses in
order, all but the last one at most.
-/
def Conn.Faithful (sent : Bytes) (mine : List (Request × Option Response)) (conn : Conn) : Prop :=
  ∃ waiting, ∃ written : List Response, ∃ unwritten,
    Reads sent (mine.map Prod.fst ++ waiting) conn.input
    ∧ mine.map Prod.snd = written.map some ++ unwritten
    ∧ written.map (SerdeJson.toVec · >>= writeFrame) = conn.output.map .ok
    ∧ match conn.phase with
      | .reading => waiting = [] ∧ unwritten = []
      | .handling req | .holding req => waiting = [req] ∧ unwritten = []
      | .writing resp => waiting = [] ∧ unwritten = [some resp]
      | .closed => waiting = [] ∧ unwritten.length ≤ 1

variable {fuel} {sent : Bytes} {mine : List (Request × Option Response)} {conn : Conn}
  {locked : Locked} {index : Nat}

/-- A step of a connection leaves the store, or dispatches the request it has read. -/
theorem Conn.Faithful.step (faithful : conn.Faithful sent mine)
    : ∃ more, (conn.step fuel index locked).1.Faithful sent (mine ++ more)
        ∧ (more = [] ∧ (conn.step fuel index locked).2.store = locked.store
          ∨ ∃ req, more = [(req, valueOf (dispatch fuel req locked.store))]
            ∧ (conn.step fuel index locked).2.store = stateOf (dispatch fuel req locked.store)) := by
  obtain ⟨input, output, phase⟩ := conn
  obtain ⟨waiting, written, unwritten, reads, answered, writes, waits⟩ := faithful
  dsimp only at reads writes
  -- a handler ends with a response, or in a panic that closes the connection
  have handled (req : Request) (waits : waiting = [req] ∧ unwritten = [])
      : Conn.Faithful sent (mine ++ [(req, valueOf (dispatch fuel req locked.store))])
          ⟨input, output, (valueOf (dispatch fuel req locked.store)).elim .closed .writing⟩ := by
    obtain ⟨rfl, rfl⟩ := waits
    refine ⟨[], written, [valueOf (dispatch fuel req locked.store)], by simpa using reads,
      by simp [answered], writes, ?_⟩
    dsimp only
    cases valueOf (dispatch fuel req locked.store) with
    | none => exact ⟨rfl, Nat.le_refl 1⟩
    | some resp => exact ⟨rfl, rfl⟩
  cases phase with
  | reading =>
    obtain ⟨rfl, rfl⟩ := waits
    have shut : Conn.Faithful sent (mine ++ []) ⟨input, output, .closed⟩ :=
      ⟨[], written, [], by simpa using reads, by simpa using answered, writes, rfl, Nat.zero_le 1⟩
    refine ⟨[], ?_, .inl ⟨rfl, ?_⟩⟩ <;> rw [Conn.step] <;> split
    · next body rest framed =>
      split
      · next req parsed =>
        rw [List.append_nil] at reads ⊢
        exact ⟨[req], written, [], reads.snoc framed parsed, answered, writes, rfl, rfl⟩
      · exact shut
    · exact shut
    · split <;> rfl
    · rfl
  | handling req =>
    rw [Conn.step]
    split
    · refine ⟨[], ?_, .inl ⟨rfl, by split <;> rfl⟩⟩
      rw [List.append_nil]
      split <;> exact ⟨waiting, written, unwritten, reads, answered, writes, waits⟩
    · next free =>
      obtain ⟨resp, left⟩ := dispatch_of_not_locks fuel (Bool.not_eq_true _ ▸ free) locked.store
      exact ⟨_, handled req waits, .inr ⟨req, rfl, by rw [left]; rfl⟩⟩
  | holding req => exact ⟨_, handled req waits, .inr ⟨req, rfl, rfl⟩⟩
  | writing resp =>
    obtain ⟨rfl, rfl⟩ := waits
    refine ⟨[], ?_, .inl ⟨rfl, ?_⟩⟩ <;> rw [Conn.step] <;> split
    · next frame framed =>
      exact ⟨[], written ++ [resp], [], by simpa using reads, by simp [answered],
        by simp [writes, framed], rfl, rfl⟩
    · exact ⟨[], written, [some resp], by simpa using reads, by simp [answered], writes, rfl,
        Nat.le_refl 1⟩
    · rfl
    · rfl
  | closed =>
    refine ⟨[], ⟨waiting, written, unwritten, ?_⟩, .inl ⟨rfl, rfl⟩⟩
    rw [List.append_nil]
    exact ⟨reads, answered, writes, waits⟩

omit [Blake3] [HashSeed] in
/-- A socket that fails loses the response that was to be written at most. -/
theorem Conn.Faithful.fail (faithful : conn.Faithful sent mine) : conn.fail.Faithful sent mine := by
  obtain ⟨input, output, phase⟩ := conn
  obtain ⟨waiting, written, unwritten, reads, answered, writes, waits⟩ := faithful
  refine ⟨waiting, written, unwritten, ?_⟩
  cases phase with
  | reading => exact ⟨reads, answered, writes, waits.1, by simp [waits.2]⟩
  | writing resp => exact ⟨reads, answered, writes, waits.1, by simp [waits.2]⟩
  | handling req | holding req | closed => exact ⟨reads, answered, writes, waits⟩

omit [Blake3] [HashSeed] [SerdeJson] in
theorem Conn.holds_fail : conn.fail.Holds ↔ conn.Holds := by
  obtain ⟨input, output, phase⟩ := conn
  cases phase <;> simp [Conn.fail, Conn.Holds]

/-- A step takes the lock only when it is free, and releases it only when the connection has it. -/
theorem Conn.holder_step (agrees : locked.holder = some index ↔ conn.Holds)
    : ((conn.step fuel index locked).2.holder = some index ↔ (conn.step fuel index locked).1.Holds)
      ∧ ∀ other ≠ index,
        (conn.step fuel index locked).2.holder = some other ↔ locked.holder = some other := by
  obtain ⟨input, output, phase⟩ := conn
  cases phase with
  | reading =>
    rw [Conn.step]
    split
    · split <;> simpa [Conn.Holds] using agrees
    · simpa [Conn.Holds] using agrees
  | handling req =>
    rw [Conn.step]
    split
    · split
      · next free => simp [Conn.Holds, free, eq_comm]
      · simpa [Conn.Holds] using agrees
    · cases valueOf (dispatch fuel req locked.store) <;> simpa [Conn.Holds] using agrees
  | holding req =>
    have mine : locked.holder = some index := agrees.mpr ⟨req, rfl⟩
    rw [Conn.step, mine]
    cases valueOf (dispatch fuel req locked.store) <;> simp [Conn.Holds, eq_comm]
  | writing resp =>
    rw [Conn.step]
    split <;> simpa [Conn.Holds] using agrees
  | closed => exact ⟨agrees, fun _ _ => Iff.rfl⟩

theorem State.Exclusive.step {state : State} (exclusive : state.Exclusive) (turn : Turn)
    : (state.step fuel turn).Exclusive := by
  intro index
  cases turn with
  | task turn =>
    obtain ⟨here, others⟩ := @Conn.holder_step _ _ fuel _ _ _ _ (exclusive turn)
    by_cases same : index = turn
    · subst same
      simpa [State.step] using here
    · simpa [State.step, same] using (others index same).trans (exclusive index)
  | socket turn =>
    by_cases same : index = turn
    · subst same
      simpa [State.step, Conn.holds_fail] using exclusive index
    · simpa [State.step, same] using exclusive index

/-- However the steps of the connections and the failures of their sockets interleave, one handler
at a time holds the lock, the store is the one that dispatching the requests in some order leaves,
and in that order each client is answered as it asked.
-/
theorem interleavings_sequential (fuel : Nat) (start : DiskStore) (sent : Nat → Bytes)
    (turns : List Turn)
    : let last := turns.foldl (State.step fuel)
        ⟨⟨start, none⟩, fun index => ⟨sent index, [], .reading⟩⟩
      last.Exclusive ∧ ∃ log, Sequential fuel start log last.locked.store
        ∧ ∀ index, (last.conns index).Faithful (sent index)
            ((log.filter (·.1 = index)).map Prod.snd) := by
  induction turns using List.reverseRecOn with
  | nil =>
    exact ⟨by simp [State.Exclusive, Conn.Holds], [], .nil,
      fun index => ⟨[], [], [], .nil, rfl, rfl, rfl, rfl⟩⟩
  | append_singleton turns turn ih =>
    obtain ⟨exclusive, log, sequential, faithful⟩ := ih
    rw [List.foldl_concat]
    generalize turns.foldl (State.step fuel) _ = state at exclusive sequential faithful ⊢
    refine ⟨exclusive.step turn, ?_⟩
    cases turn with
    | task turn =>
      obtain ⟨more, further, moved⟩ :=
        @Conn.Faithful.step _ _ fuel _ _ _ _ state.locked turn (faithful turn)
      refine ⟨log ++ more.map (turn, ·), ?_, fun index => ?_⟩
      · dsimp only [State.step]
        rcases moved with ⟨rfl, same⟩ | ⟨req, rfl, moved⟩
        · rwa [same, List.map_nil, List.append_nil]
        · rw [moved]
          exact sequential.snoc turn req
      · by_cases here : index = turn
        · subst here
          simpa [State.step, List.filter_map, Function.comp_def] using further
        · simpa [State.step, here, Ne.symm here, List.filter_map, Function.comp_def]
            using faithful index
    | socket turn =>
      refine ⟨log, sequential, fun index => ?_⟩
      by_cases here : index = turn
      · subst here
        simpa [State.step] using (faithful index).fail
      · simpa [State.step, here] using faithful index

end Epochs.Server
