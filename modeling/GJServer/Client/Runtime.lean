import GJServer.Client.Command
import GJServer.Library.Exec

/-!
The two threads of a client (`client/gjclient.cpp`, `client/client.cpp`,
`net/session.h`).

The main thread runs `ProcessFile`: for each command it puts a fresh promise into
`m_promise`, starts to write the request and waits for the promise. The network
thread runs the completion handlers of the socket operations, one at a time; a
handler that meets an error, or a message that `ResolveHandler` rejects, stays in
`ProcessDisconnect` until the session is connected again or five attempts have
failed.

An operation completes when its result is known and is handled later. Closing the
socket lets every pending operation complete with an error. What the bytes of a
read add up to is the matter of `Connection.onRead`; here a read either leaves
its message unfinished or completes some message.
-/

namespace GJServer.Client

open Library Exec Net

inductive Kind
  | read
  | write
  deriving DecidableEq

inductive Progress
  | pending
  | succeeded
  | failed
  deriving DecidableEq

/-- An `async_read_some` or `async_write` whose handler has not run yet, and the
connection it was started on. -/
structure Operation where
  kind : Kind
  connection : ℕ
  progress : Progress
  deriving DecidableEq

/-- The main thread is between two commands, has put a fresh promise in place,
waits for its future, or has been thrown out of `ProcessFile`. -/
inductive Main
  | ready
  | installed
  | waiting
  | thrown
  deriving DecidableEq

/-- The network thread waits for a completion; or it is in `ProcessDisconnect`,
for the sake of an operation of connection `cause` and with so many attempts
left; or it is about to report that they all failed, or to report success; or a
second `set_value` has thrown, nobody has caught it, and the process is gone. -/
inductive Network
  | idle
  | reconnecting (attempts : ℕ) (cause : ℕ)
  | givingUp
  | announcing
  | terminated
  deriving DecidableEq

structure Promise where
  id : ℕ
  value : Option Result
  deriving DecidableEq

/-- `connection` counts the connections made so far and `isOpen` says whether the
socket is open. `received` are the promises `set_value` was called on, and
`closed` says of every connection that `Reconnect` closed on which connection
the operation was started that led to it. -/
structure State where
  todo : List TCommandPair
  main : Main
  promise : Promise
  received : List ℕ
  net : Network
  connection : ℕ
  isOpen : Bool
  operations : List Operation
  closed : List (ℕ × ℕ)
  deriving DecidableEq

/-- Event `finish` is the completion of an operation, `handle` the run of its
handler; `message` is what the bytes of a read have completed. -/
inductive Event
  | install
  | send
  | resume
  | finish (i : ℕ) (ok : Bool)
  | handle (i : ℕ) (message : Option Str)
  | attempt (ok : Bool)
  | report
  deriving DecidableEq

def DEFAULT_RECONNECT_ATTEMPTS_COUNT : ℕ := 5

/-- `Connect` has succeeded, its `Read` is pending, and the command file has been
loaded. -/
def start (commands : List TCommandPair) : State where
  todo := commands
  main := .ready
  promise := ⟨0, none⟩
  received := []
  net := .idle
  connection := 0
  isOpen := true
  operations := [⟨.read, 0, .pending⟩]
  closed := []

namespace State

/-- On a closed socket an operation fails at once. -/
def begin (s : State) (kind : Kind) : State :=
  { s with operations := s.operations ++
      [⟨kind, s.connection, if s.isOpen then .pending else .failed⟩] }

/-- `m_promise.set_value`, and where the network thread goes on. -/
def setValue (s : State) (result : Result) (next : Network) : State :=
  match s.promise.value with
  | none =>
      { s with promise := ⟨s.promise.id, some result⟩, received := s.received ++ [s.promise.id]
               net := next }
  -- the second value throws `std::future_error`
  | some _ => { s with received := s.received ++ [s.promise.id], net := .terminated }

/-- `m_socket.close()` in the `Reconnect` that `cause` led to. -/
def close (s : State) (cause : ℕ) : State :=
  { s with
    isOpen := false
    operations := s.operations.map fun op =>
      if op.progress = .pending then { op with progress := .failed } else op
    closed := if s.isOpen then s.closed ++ [(cause, s.connection)] else s.closed }

/-- The socket has been connected again, and `TClient::Reconnect` reads. -/
def connect (s : State) : State :=
  { { s with connection := s.connection + 1, isOpen := true }.begin .read with
    net := .announcing }

/-- The operation with number `i` has been handled. -/
def without (s : State) (i : ℕ) : State :=
  { s with operations := s.operations.eraseIdx i }

end State

/-- `ProcessDisconnect` begins in the handler of `op`. -/
def reconnecting (op : Operation) : Network :=
  .reconnecting DEFAULT_RECONNECT_ATTEMPTS_COUNT op.connection

/-- The completion handler of `Read` for a read that succeeded, or of `Write`. -/
def onSuccess (s : State) (op : Operation) (message : Option Str) : State :=
  match op.kind, message with
  | .write, _ => s
  | .read, none => s.begin .read
  | .read, some message =>
      let resolved := resolveHandler message
      if resolved.answer then
        let s := s.setValue resolved.result .idle
        if s.net = .terminated then s else s.begin .read
      else
        -- `ProcessDisconnect` follows and will set the promise again
        s.setValue resolved.result (reconnecting op)

def step (s : State) (e : Event) : Option State :=
  if s.net = .terminated then none
  else
    match e with
    | .install =>
        if s.main = .ready ∧ s.todo ≠ [] then
          some { s with main := .installed, promise := ⟨s.promise.id + 1, none⟩ }
        else none
    | .send =>
        match s.main, s.todo with
        | .installed, command :: _ =>
            match request command with
            | some _ => some { s.begin .write with main := .waiting }
            | none => some { s with main := .thrown }
        | _, _ => none
    | .resume =>
        match s.main, s.todo, s.promise.value with
        | .waiting, command :: rest, some result =>
            match (conclude command result).returned with
            | .ok true => some { s with main := .ready, todo := rest }
            | .ok false => some { s with main := .ready }
            | .error _ => some { s with main := .thrown }
        | _, _, _ => none
    | .finish i ok =>
        match s.operations[i]? with
        | some ⟨kind, connection, .pending⟩ =>
            some { s with operations :=
              s.operations.set i ⟨kind, connection, if ok then .succeeded else .failed⟩ }
        | _ => none
    | .handle i message =>
        if s.net = .idle then
          match s.operations[i]? with
          | some op =>
              match op.progress with
              | .pending => none
              | .succeeded => some (onSuccess (s.without i) op message)
              | .failed => some { s.without i with net := reconnecting op }
          | none => none
        else none
    | .attempt ok =>
        match s.net with
        | .reconnecting (attempts + 1) cause =>
            if ok then some (s.close cause).connect
            else
              some { s.close cause with
                net := if attempts = 0 then .givingUp else .reconnecting attempts cause }
        | _ => none
    | .report =>
        match s.net with
        -- the branch of the failure does not return
        | .givingUp => some (s.setValue (.EDISCON_FAILED, []) .announcing)
        | .announcing => some (s.setValue (.EDISCON_SUCCESS, []) .idle)
        | _ => none

/-- Everything an event can do. -/
inductive Step (s : State) : Event → State → Prop
  | install (hmain : s.main = .ready) :
      Step s .install { s with main := .installed, promise := ⟨s.promise.id + 1, none⟩ }
  | send (hmain : s.main = .installed) : Step s .send { s.begin .write with main := .waiting }
  | throw (hmain : s.main = .installed) : Step s .send { s with main := .thrown }
  | resume (main todo) (hmain : s.main = .waiting) (hvalue : s.promise.value ≠ none) :
      Step s .resume { s with main := main, todo := todo }
  | finish (i ok kind connection)
      (hop : s.operations[i]? = some ⟨kind, connection, .pending⟩) :
      Step s (.finish i ok) { s with
        operations := s.operations.set i ⟨kind, connection, if ok then .succeeded else .failed⟩ }
  | written (i message connection) (hnet : s.net = .idle)
      (hop : s.operations[i]? = some ⟨.write, connection, .succeeded⟩) :
      Step s (.handle i message) (s.without i)
  | unfinished (i connection) (hnet : s.net = .idle)
      (hop : s.operations[i]? = some ⟨.read, connection, .succeeded⟩) :
      Step s (.handle i none) ((s.without i).begin .read)
  | accepted (i message connection) (hnet : s.net = .idle)
      (hop : s.operations[i]? = some ⟨.read, connection, .succeeded⟩)
      (hanswer : (resolveHandler message).answer = true) (hvalue : s.promise.value = none) :
      Step s (.handle i (some message))
        (((s.without i).setValue (resolveHandler message).result .idle).begin .read)
  | crashed (i message connection) (hnet : s.net = .idle)
      (hop : s.operations[i]? = some ⟨.read, connection, .succeeded⟩)
      (hanswer : (resolveHandler message).answer = true) (hvalue : s.promise.value ≠ none) :
      Step s (.handle i (some message))
        ((s.without i).setValue (resolveHandler message).result .idle)
  | rejected (i message connection) (hnet : s.net = .idle)
      (hop : s.operations[i]? = some ⟨.read, connection, .succeeded⟩)
      (hanswer : (resolveHandler message).answer = false) :
      Step s (.handle i (some message))
        ((s.without i).setValue (resolveHandler message).result
          (reconnecting ⟨.read, connection, .succeeded⟩))
  | failed (i message kind connection) (hnet : s.net = .idle)
      (hop : s.operations[i]? = some ⟨kind, connection, .failed⟩) :
      Step s (.handle i message)
        { s.without i with net := reconnecting ⟨kind, connection, .failed⟩ }
  | attemptOk (attempts cause) (hnet : s.net = .reconnecting (attempts + 1) cause) :
      Step s (.attempt true) (s.close cause).connect
  | attemptFailed (attempts cause) (hnet : s.net = .reconnecting (attempts + 1) cause) :
      Step s (.attempt false) { s.close cause with
        net := if attempts = 0 then .givingUp else .reconnecting attempts cause }
  | reportFailure (hnet : s.net = .givingUp) :
      Step s .report (s.setValue (.EDISCON_FAILED, []) .announcing)
  | reportSuccess (hnet : s.net = .announcing) :
      Step s .report (s.setValue (.EDISCON_SUCCESS, []) .idle)

theorem net_setValue_of_none {s : State} (h : s.promise.value = none) (result : Result)
    (next : Network) : (s.setValue result next).net = next := by
  rw [State.setValue, h]

theorem net_setValue_of_ne_none {s : State} (h : s.promise.value ≠ none) (result : Result)
    (next : Network) : (s.setValue result next).net = .terminated := by
  obtain ⟨value, hvalue⟩ := Option.ne_none_iff_exists'.mp h
  rw [State.setValue, hvalue]

theorem step_onSuccess {s : State} {i : ℕ} {message : Option Str} {kind : Kind}
    {connection : ℕ} (hnet : s.net = .idle)
    (hop : s.operations[i]? = some ⟨kind, connection, .succeeded⟩) :
    Step s (.handle i message)
      (onSuccess (s.without i) ⟨kind, connection, .succeeded⟩ message) := by
  cases kind with
  | write => exact .written i message connection hnet hop
  | read =>
      cases message with
      | none => exact .unfinished i connection hnet hop
      | some message =>
          simp only [onSuccess]
          split
          · next hanswer =>
              by_cases hvalue : (s.without i).promise.value = none
              · rw [net_setValue_of_none hvalue, if_neg nofun]
                exact .accepted i message connection hnet hop hanswer hvalue
              · rw [net_setValue_of_ne_none hvalue, if_pos rfl]
                exact .crashed i message connection hnet hop hanswer hvalue
          · next hanswer => exact .rejected i message connection hnet hop (by simpa using hanswer)

theorem step_cases {s s' : State} {e : Event} (h : step s e = some s') :
    s.net ≠ .terminated ∧ Step s e s' := by
  unfold step at h
  rw [Option.ite_none_left_eq_some] at h
  refine ⟨h.1, ?_⟩
  replace h := h.2
  cases e with
  | install =>
      simp only [Option.ite_none_right_eq_some, Option.some.injEq] at h
      obtain ⟨⟨hmain, -⟩, rfl⟩ := h
      exact .install hmain
  | send =>
      simp only at h
      split at h
      · next hmain _ =>
          split at h <;> obtain rfl := Option.some.inj h
          · exact .send hmain
          · exact .throw hmain
      · cases h
  | resume =>
      simp only at h
      split at h
      · next hmain _ hvalue =>
          have hvalue' : s.promise.value ≠ none := by simp [hvalue]
          split at h <;> obtain rfl := Option.some.inj h
          · exact .resume .ready _ hmain hvalue'
          · exact .resume .ready s.todo hmain hvalue'
          · exact .resume .thrown s.todo hmain hvalue'
      · cases h
  | finish i ok =>
      simp only at h
      split at h
      · next kind connection hop =>
          obtain rfl := Option.some.inj h
          exact .finish i ok kind connection hop
      · cases h
  | handle i message =>
      simp only [Option.ite_none_right_eq_some] at h
      obtain ⟨hnet, h⟩ := h
      split at h
      · next op hop =>
          obtain ⟨kind, connection, progress⟩ := op
          cases progress with
          | pending => cases h
          | succeeded =>
              obtain rfl := Option.some.inj h
              exact step_onSuccess hnet hop
          | failed =>
              obtain rfl := Option.some.inj h
              exact .failed i message kind connection hnet hop
      · cases h
  | attempt ok =>
      simp only at h
      split at h
      · next attempts cause hnet =>
          cases ok with
          | true =>
              obtain rfl := Option.some.inj h
              exact .attemptOk attempts cause hnet
          | false =>
              obtain rfl := Option.some.inj h
              exact .attemptFailed attempts cause hnet
      · cases h
  | report =>
      simp only at h
      split at h
      · next hnet =>
          obtain rfl := Option.some.inj h
          exact .reportFailure hnet
      · next hnet =>
          obtain rfl := Option.some.inj h
          exact .reportSuccess hnet
      · cases h

end GJServer.Client
