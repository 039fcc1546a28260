import GJServer.Library.Channel
import GJServer.Net.Stream
import GJServer.Server.Handler

/-!
The responses of one session (`net/session.h`, `server/gjserver.cpp`). `Write` hands
each to an `asio::async_write` of its own, and `Read` goes on at once: a peer that does
not wait for its answers has several writes pending on one socket, and each of them
goes out in as many parts as the socket likes.
-/

namespace GJServer.Server.Responses

open Library Exec Net KVStorage

/-- A call of `ResolveHandler`: the storage it found and the memory it was given. -/
structure Call where
  storage : TKVStorage
  request : Str
  deriving DecidableEq

def Call.resolved (call : Call) : Resolved := resolveHandler call.storage call.request

structure State where
  connection : Connection
  storage : TKVStorage
  calls : List Call
  channel : Channel UInt8

/-- A read completion, a `write_some` for one of the responses, or a set that comes in
on another connection. -/
inductive Event
  | read (bytes : Str)
  | writeSome (i n : ℕ)
  | otherSet (key value : Str)

def start (storage : TKVStorage) : State where
  connection := .start (.make TSession.DEFAULT_MAX_MESSAGE_SIZE)
  storage := storage
  calls := []
  channel := .empty

/-- What the handler answers to the last of the frames. -/
def answer (storage : TKVStorage) (frames : List Str) : Bool :=
  match frames.getLast? with
  | some frame => (resolveHandler storage frame).answer
  | none => true

def serve (s : State) (request : Str) : State :=
  let resolved := resolveHandler s.storage request
  { s with
    storage := resolved.storage
    calls := s.calls ++ [⟨s.storage, request⟩]
    channel := resolved.written.foldl Channel.write s.channel }

def step (s : State) : Event → Option State
  | .read bytes =>
      (s.connection.onRead (answer s.storage) bytes).map fun connection =>
        let dispatched := connection.dispatched.drop s.connection.dispatched.length
        (dispatched.map Dispatch.memory).foldl serve { s with connection := connection }
  | .writeSome i n =>
      (s.channel.writeSome i n).map fun channel => { s with channel := channel }
  | .otherSet key value => some { s with storage := s.storage.set key value }

/-- The responses in the order of the requests. -/
def State.responses (s : State) : List Str := s.calls.flatMap fun call => call.resolved.written

/-- What has been put on the connection is the beginning of the responses to the
frames the peer has sent, in their order. -/
structure InOrder (s : State) : Prop where
  calls : s.calls.map Call.request = s.connection.dispatched.map Dispatch.memory
  stream : s.channel.stream <+: s.responses.flatten

/-- Every frame has been handed over, and its response passed to `Write`. -/
structure Served (s : State) : Prop where
  calls : s.calls.map Call.request = s.connection.dispatched.map Dispatch.memory
  queued : s.channel.queued = s.responses

/-- A part of a response goes out when nothing is left of the older ones. -/
def InTurn (s : State) : Event → Prop
  | .writeSome i _ => s.channel.IsFirst i
  | _ => True

instance (s : State) : (e : Event) → Decidable (InTurn s e)
  | .writeSome i _ => inferInstanceAs (Decidable (s.channel.IsFirst i))
  | .read _ => isTrue trivial
  | .otherSet _ _ => isTrue trivial

/-- A read completion extends the pending message, or one frame is handed over. -/
inductive Reads (s : State) : State → Prop
  | part (session : TSession) :
      Reads s { s with connection := ⟨session, true, s.connection.dispatched⟩ }
  | frame (session : TSession) (reading : Bool) (d : Dispatch) :
      Reads s (serve
        { s with connection := ⟨session, reading, s.connection.dispatched ++ [d]⟩ } d.memory)

variable {s s' : State} {e : Event}

theorem reads_of_step {bytes : Str} (h : step s (.read bytes) = some s') : Reads s s' := by
  obtain ⟨c, hread, rfl⟩ := Option.map_eq_some_iff.mp h
  obtain ⟨-, -, -, session, -, hcase⟩ := Connection.onRead_cases hread
  rcases hcase with ⟨-, rfl⟩ | ⟨-, d, -, ⟨-, rfl⟩ | ⟨-, rfl⟩⟩
  · simp only [List.drop_length, List.map_nil, List.foldl_nil]
    exact .part session
  all_goals
    simp only [List.drop_left, List.map_singleton, List.foldl_cons, List.foldl_nil]
    exact .frame _ _ d

theorem answer_resolveHandler (storage : TKVStorage) (request : Str) :
    (resolveHandler storage request).answer = (THeader.ofBytes request).verifyRequest := by
  rw [resolveHandler]
  cases (THeader.ofBytes request).verifyRequest with
  | false => rfl
  | true =>
      simp only [Bool.not_true, Bool.false_eq_true, if_false]
      split
      · rfl
      · split <;> rfl

theorem queued_writeAll (messages : List Str) (channel : Channel UInt8) :
    (messages.foldl Channel.write channel).queued = channel.queued ++ messages := by
  induction messages generalizing channel with
  | nil => exact (List.append_nil _).symm
  | cons message messages ih =>
      rw [List.foldl_cons, ih, Channel.write, List.append_assoc, List.singleton_append]

theorem whole_writeAll {messages : List Str} {channel : Channel UInt8} (h : channel.Whole) :
    (messages.foldl Channel.write channel).Whole := by
  induction messages generalizing channel with
  | nil => exact h
  | cons message messages ih => exact ih (Channel.whole_write h message)

theorem conserved_writeAll {messages : List Str} {channel : Channel UInt8}
    (h : channel.Conserved) : (messages.foldl Channel.write channel).Conserved := by
  induction messages generalizing channel with
  | nil => exact h
  | cons message messages ih => exact ih (Channel.conserved_write h message)

theorem served_start (storage : TKVStorage) : Served (start storage) := ⟨rfl, rfl⟩

theorem served_serve {session : TSession} {reading : Bool} {d : Dispatch} (h : Served s) :
    Served (serve { s with connection := ⟨session, reading, s.connection.dispatched ++ [d]⟩ }
      d.memory) := by
  constructor
  · simp only [serve, List.map_append, h.calls, List.map_singleton]
  · simp only [serve, State.responses, queued_writeAll, List.flatMap_append,
      List.flatMap_singleton]
    rw [h.queued]
    rfl

theorem served_step (h : Served s) (hstep : step s e = some s') : Served s' := by
  cases e with
  | read bytes =>
      cases reads_of_step hstep with
      | part session => exact ⟨h.calls, h.queued⟩
      | frame session reading d => exact served_serve h
  | writeSome i n =>
      obtain ⟨channel, hsome, rfl⟩ := Option.map_eq_some_iff.mp hstep
      obtain ⟨pre, rest, post, -, -, rfl⟩ := Channel.writeSome_eq_some hsome
      exact ⟨h.calls, h.queued⟩
  | otherSet key value =>
      obtain rfl := Option.some.inj hstep
      exact ⟨h.calls, h.queued⟩

theorem whole_step (h : s.channel.Whole) (hturn : InTurn s e) (hstep : step s e = some s') :
    s'.channel.Whole := by
  cases e with
  | read bytes =>
      cases reads_of_step hstep with
      | part session => exact h
      | frame session reading d => exact whole_writeAll h
  | writeSome i n =>
      obtain ⟨channel, hsome, rfl⟩ := Option.map_eq_some_iff.mp hstep
      exact Channel.whole_writeSome h hturn hsome
  | otherSet key value =>
      obtain rfl := Option.some.inj hstep
      exact h

/-- In every run in which no response overtakes an older one, the connection carries
whole responses in the order of the requests. -/
theorem inOrder_of_inTurn (storage : TKVStorage) (events : List Event)
    (hmeet : StepsMeet step InTurn (start storage) events) (s : State)
    (hrun : exec step (start storage) events = some s) : InOrder s := by
  have hserved : Served s :=
    exec_invariant (fun _ _ _ => served_step) (served_start storage) hrun
  have hwhole : s.channel.Whole :=
    exec_invariant_of_stepsMeet (I := fun s => s.channel.Whole) (fun _ _ _ => whole_step)
      Channel.whole_empty hmeet hrun
  refine ⟨hserved.calls, ?_⟩
  rw [← hserved.queued]
  exact hwhole.stream_prefix

/-- A peer sets `k` to `v` and gets it without waiting in between. -/
def pipelined : List Event :=
  [.read [0, 0, 0x12, 0, 11, 0, 0, 0], .read [107, 32, 118], .read [0, 0, 0x11, 0, 9, 0, 0, 0],
    .read [107]]

/-- The second response begins to go out when three bytes of the first are there. -/
def overtaking : List Event := pipelined ++ [.writeSome 0 3, .writeSome 1 3]

def inTurn : List Event := pipelined ++ [.writeSome 0 3, .writeSome 0 5, .writeSome 1 9]

theorem overtaking_mixes :
    ∃ s, exec step (start .make) overtaking = some s ∧
      s.channel.stream = [0, 0, 0x22, 0, 0, 0x21] ∧ ¬InOrder s := by
  have hrun : ∃ s, exec step (start .make) overtaking = some s ∧
      s.channel.stream = [0, 0, 0x22, 0, 0, 0x21] ∧
      s.responses.flatten = [0, 0, 0x22, 0, 8, 0, 0, 0, 0, 0, 0x21, 0, 9, 0, 0, 0, 118] :=
    ⟨_, rfl, rfl, rfl⟩
  obtain ⟨s, hs, hstream, hresponses⟩ := hrun
  refine ⟨s, hs, hstream, fun h => ?_⟩
  have hprefix := h.stream
  rw [hstream, hresponses] at hprefix
  exact absurd hprefix (by decide)

theorem inOrder_of_inTurn_pipelined :
    ∃ s, exec step (start .make) inTurn = some s ∧
      s.channel.stream = s.responses.flatten ∧ InOrder s := by
  have hrun : ∃ s, exec step (start .make) inTurn = some s ∧
      s.channel.stream = s.responses.flatten ∧
      StepsMeet step InTurn (start .make) inTurn := ⟨_, rfl, rfl, by decide +kernel⟩
  obtain ⟨s, hs, hstream, hmeet⟩ := hrun
  exact ⟨s, hs, hstream, inOrder_of_inTurn .make inTurn hmeet s hs⟩

end GJServer.Server.Responses
