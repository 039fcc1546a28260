import GJServer.Library.Simulation
import GJServer.Net.Pipe
import GJServer.System.Linearizable
import Mathlib.Algebra.Order.BigOperators.Group.Finset

/-!
The clients and their server byte by byte.

Both ends of a connection run `TSession::Read` over their own buffer, and both write
through composed operations whose parts go out one at a time. The handler of the server
finds its message in the buffer of the session, which is free again when the handler
returns; the handler of the client puts what it makes of the message into the promise,
and the main thread goes on with it later. The rest is as in `System.Run`, whose
connections carry whole frames.
-/

namespace GJServer.System.Bytes

open Library Exec Linearization Net KVStorage Client Server

/-- The session of a client reads; or its handler has rejected a message and is in
`ProcessDisconnect`; or a second `set_value` has thrown and the process is gone. -/
inductive Reader
  | reading
  | disconnecting
  | terminated
  deriving DecidableEq

/-- A client and its connection: `session` and `handler` are on the side of the server. -/
structure Link where
  todo : List TCommandPair
  main : Main
  results : List Result
  promise : Option Result
  up : Pipe
  session : TSession
  handler : Handler
  down : Pipe
  client : TSession
  reader : Reader
  deriving DecidableEq

structure State (nclients : ℕ) where
  links : Fin nclients → Link
  server : Runtime.State nclients
  log : List (Mark (Op nclients))

inductive Event (nclients : ℕ)
  | send (i : Fin nclients)
  | sendUp (i : Fin nclients) (k n : ℕ)
  | readUp (i : Fin nclients) (n : ℕ)
  | get (i : Fin nclients)
  | insert (i : Fin nclients)
  | mark (i : Fin nclients)
  | reply (i : Fin nclients)
  | sendDown (i : Fin nclients) (k n : ℕ)
  | readDown (i : Fin nclients) (n : ℕ)
  | resume (i : Fin nclients)
  | sync (e : Runtime.Event nclients)

variable {nclients : ℕ}

/-- Every client is connected, and both sessions of a connection are fresh. -/
def start (file : Str) (commands : Fin nclients → List TCommandPair) : State nclients where
  links := fun i =>
    { todo := commands i, main := .ready, results := [], promise := none
      up := .empty, session := .make TSession.DEFAULT_MAX_MESSAGE_SIZE, handler := .idle
      down := .empty, client := .make TSession.DEFAULT_MAX_MESSAGE_SIZE, reader := .reading }
  server := (System.start file commands).server
  log := []

namespace State

def setLink (s : State nclients) (i : Fin nclients) (link : Link) : State nclients :=
  { s with links := Function.update s.links i link }

def record (s : State nclients) (mark : Mark (Op nclients)) : State nclients :=
  { s with log := s.log ++ [mark] }

def op (s : State nclients) (i : Fin nclients) : Op nclients := (i, (s.links i).results.length)

end State

/-- The handler of the server starts on the message in the buffer of `link`. -/
def handle (path : String) (s : State nclients) (i : Fin nclients) (link : Link) :
    Option (State nclients) :=
  let header := link.session.header
  if !header.verifyRequest then some (s.setLink i { link with handler := .rejected })
  else if header.cmd = ECMD.READ_REQUEST then
    some (s.setLink i { link with
      handler := .getting (THeader.contentView link.session.buffer) })
  else if header.cmd = ECMD.WRITE_REQUEST then
    let pair := requestPair link.session.buffer
    (Runtime.step path s.server (.begin i pair.1 pair.2)).map fun server =>
      { s.setLink i { link with handler := .setting } with server := server }
  else some (s.setLink i { link with session := link.session.clear })

/-- The handler of the client on the message in its buffer. -/
def deliver (link : Link) : Link :=
  let resolved := Client.resolveHandler link.client.buffer
  match link.promise with
  | none =>
      if resolved.answer then
        { link with promise := some resolved.result, client := link.client.clear }
      else { link with promise := some resolved.result, reader := .disconnecting }
  | some _ => { link with reader := .terminated }

/-- `ProcessCommand` goes on with the result of its promise. -/
def resume (s : State nclients) (i : Fin nclients) (command : TCommandPair)
    (todo : List TCommandPair) (result : Result) : State nclients :=
  let link := { s.links i with results := (s.links i).results ++ [result] }
  match (conclude command result).returned with
  | .ok true => (s.setLink i { link with todo := todo, main := .ready }).record (.ret (s.op i))
  | .ok false => s.setLink i { link with main := .ready }
  | .error _ => s.setLink i { link with main := .thrown }

def step (path : String) (s : State nclients) : Event nclients → Option (State nclients)
  | .send i =>
      match (s.links i).reader, (s.links i).main, (s.links i).todo with
      | .terminated, _, _ => none
      | _, .ready, command :: _ =>
          match request command with
          | some message =>
              some ((s.setLink i { s.links i with
                main := .waiting, promise := none, up := (s.links i).up.write message }).record
                  (.call (s.op i)))
          | none => some (s.setLink i { s.links i with main := .thrown, promise := none })
      | _, _, _ => none
  | .sendUp i k n =>
      ((s.links i).up.writeSome k n).map fun up => s.setLink i { s.links i with up := up }
  | .readUp i n =>
      if (s.links i).handler = .idle then
        ((s.links i).up.read (s.links i).session n).bind fun r =>
          let link := { s.links i with up := r.1, session := r.2 }
          if r.2.Complete then handle path s i link else some (s.setLink i link)
      else none
  | .get i =>
      match (s.links i).handler with
      | .getting key =>
          let value := (s.server.storage.get key).getD []
          some ((s.setLink i { s.links i with handler := .answering (readResponse value) }).record
            (.commit (s.op i)))
      | _ => none
  | .insert i =>
      if (s.links i).handler = .setting then
        (Runtime.step path s.server (.insert i)).map fun server =>
          { s.record (.commit (s.op i)) with server := server }
      else none
  | .mark i =>
      if (s.links i).handler = .setting then
        (Runtime.step path s.server (.mark i)).map fun server =>
          { s.setLink i { s.links i with handler := .answering writeResponse } with
            server := server }
      else none
  | .reply i =>
      match (s.links i).handler with
      | .answering response =>
          -- `ResolveHandler` returns `true`, and the session reads again
          some (s.setLink i { s.links i with
            handler := .idle, session := (s.links i).session.clear
            down := (s.links i).down.write response })
      | _ => none
  | .sendDown i k n =>
      ((s.links i).down.writeSome k n).map fun down =>
        s.setLink i { s.links i with down := down }
  | .readDown i n =>
      if (s.links i).reader = .reading then
        ((s.links i).down.read (s.links i).client n).map fun r =>
          let link := { s.links i with down := r.1, client := r.2 }
          s.setLink i (if r.2.Complete then deliver link else link)
      else none
  | .resume i =>
      match (s.links i).reader, (s.links i).main, (s.links i).todo, (s.links i).promise with
      | .terminated, _, _, _ => none
      | _, .waiting, command :: todo, some result => some (resume s i command todo result)
      | _, _, _, _ => none
  | .sync e =>
      if isSync e = true then
        (Runtime.step path s.server e).map fun server => { s with server := server }
      else none

/-! ### What the bytes stand for -/

namespace Link

/-- While a handler runs its message is still in the buffer. -/
def receiving (c : Link) : TSession := if c.handler = .idle then c.session else c.session.clear

/-- What the promise of the current command has been given. -/
def delivered (c : Link) : List Result := if c.main = .waiting then c.promise.toList else []

end Link

/-- The bytes of `c` are those of the frames of `a`, except for a response that has
become the value of the promise. -/
structure Carries (c : Link) (a : System.Link) : Prop where
  todo : c.todo = a.todo
  main : c.main = a.main
  results : c.results = a.results
  handler : c.handler = a.handler
  reader : c.reader = .reading
  requests : Flow c.receiving c.up a.requests
  responses : ∃ taken rest, a.responses = taken ++ rest ∧
    taken.map (fun message => (Client.resolveHandler message).result) = c.delivered ∧
    Flow c.client c.down rest
  answering : ∀ response, c.handler = .answering response → FitsBuffer response

structure Refines (c : State nclients) (a : System.State nclients) : Prop where
  server : c.server = a.server
  log : c.log = a.log
  links : ∀ i, Carries (c.links i) (a.links i)

/-- How many of its six steps on the level of frames each command still has before it. -/
def phases (a : System.Link) (setter : Runtime.Setter) : ℕ :=
  let pace := match a.handler with
    | .getting _ => 4
    | .setting => if setter = .marking then 3 else 4
    | .answering _ => 2
    | _ => 0
  if a.main = .waiting then
    6 * a.todo.tail.length + 5 * a.requests.length + pace + a.responses.length
  else 6 * a.todo.length

/-- A frame of at most 4096 bytes is moved at most twice that often. -/
def workLeft (c : Link) (a : System.Link) (setter : Runtime.Setter) : ℕ :=
  8193 * phases a setter + (c.up.work + c.down.work)

def work (c : State nclients) (a : System.State nclients) : ℕ :=
  ∑ i, workLeft (c.links i) (a.links i) (a.server.setters i)

/-- The steps of the thread of the storage are not counted. -/
def cost : Event nclients → ℕ
  | .sync _ => 0
  | _ => 1

end GJServer.System.Bytes
