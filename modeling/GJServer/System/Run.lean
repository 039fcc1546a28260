import GJServer.Client.Runtime
import GJServer.Library.Linearization
import GJServer.Server.Runtime
import GJServer.System.Exchange

/-!
Clients and their server, while no connection is lost.

Each client runs its commands one at a time through `ProcessCommand`. Its
connection carries whole frames in both directions (`Connection.framing_round_trip`),
and on the side of the server its session runs one handler at a time, which is
`TGJServer::ResolveHandler` cut where `TKVStorage::Get` and `TKVStorage::Set` take
and release the lock. The server is the machine of `Server.Runtime`: the handler of
client `i` makes its calls of `Set` as thread `i`, and the thread of the storage
takes its steps in between.
-/

namespace GJServer.System

open Library Exec Linearization Net KVStorage Client Server

/-- The handler of a session is not running, is about to look up a key, is inside
`Set`, or is about to write the response; or it has returned `false`. -/
inductive Handler
  | idle
  | getting (key : Str)
  | setting
  | answering (response : Str)
  | rejected
  deriving DecidableEq

/-- A client, its connection and its session. `results` are the values that its
promises have been given. -/
structure Link where
  todo : List TCommandPair
  main : Main
  results : List Result
  requests : List Str
  handler : Handler
  responses : List Str
  deriving DecidableEq

/-- A command: the client and how many commands it has run before. -/
abbrev Op (nclients : ℕ) := Fin nclients × ℕ

/-- `log` says when each command is sent, takes effect and is answered. -/
structure State (nclients : ℕ) where
  links : Fin nclients → Link
  server : Runtime.State nclients
  log : List (Mark (Op nclients))

inductive Event (nclients : ℕ)
  | send (i : Fin nclients)
  | handle (i : Fin nclients)
  | get (i : Fin nclients)
  | insert (i : Fin nclients)
  | mark (i : Fin nclients)
  | reply (i : Fin nclients)
  | receive (i : Fin nclients)
  | sync (e : Runtime.Event nclients)

variable {nclients : ℕ}

/-- The server has loaded its file and every client is connected. -/
def start (file : Str) (commands : Fin nclients → List TCommandPair) : State nclients where
  links := fun i => ⟨commands i, .ready, [], [], .idle, []⟩
  server := { (Runtime.start file : Runtime.State nclients) with
    phase := .serving, storage := ⟨loadText file ∅, false⟩, loaded := loadText file ∅ }
  log := []

namespace State

def setLink (s : State nclients) (i : Fin nclients) (link : Link) : State nclients :=
  { s with links := Function.update s.links i link }

def record (s : State nclients) (mark : Mark (Op nclients)) : State nclients :=
  { s with log := s.log ++ [mark] }

/-- The command that client `i` is at. -/
def op (s : State nclients) (i : Fin nclients) : Op nclients := (i, (s.links i).results.length)

end State

/-- The steps of the thread of the storage. -/
def isSync : Runtime.Event nclients → Bool
  | .dequeue | .wake | .check | .copy | .store _ | .post => true
  | _ => false

/-- The handler starts with the message at the head of the connection. -/
def handle (path : String) (s : State nclients) (i : Fin nclients) (message : Str)
    (rest : List Str) : Option (State nclients) :=
  let link := { s.links i with requests := rest }
  let header := THeader.ofBytes message
  if !header.verifyRequest then some (s.setLink i { link with handler := .rejected })
  else if header.cmd = ECMD.READ_REQUEST then
    some (s.setLink i { link with handler := .getting (THeader.contentView message) })
  else if header.cmd = ECMD.WRITE_REQUEST then
    let pair := requestPair message
    (Runtime.step path s.server (.begin i pair.1 pair.2)).map fun server =>
      { s.setLink i { link with handler := .setting } with server := server }
  else some (s.setLink i link)

/-- `ProcessCommand` goes on with the result that the promise was given. -/
def receive (s : State nclients) (i : Fin nclients) (command : TCommandPair)
    (todo : List TCommandPair) (message : Str) (rest : List Str) : State nclients :=
  let result := (Client.resolveHandler message).result
  let link := { s.links i with results := (s.links i).results ++ [result], responses := rest }
  match (conclude command result).returned with
  | .ok true => (s.setLink i { link with todo := todo, main := .ready }).record (.ret (s.op i))
  | .ok false => s.setLink i { link with main := .ready }
  | .error _ => s.setLink i { link with main := .thrown }

def step (path : String) (s : State nclients) : Event nclients → Option (State nclients)
  | .send i =>
      match (s.links i).main, (s.links i).todo with
      | .ready, command :: _ =>
          match request command with
          | some message =>
              some ((s.setLink i { s.links i with
                main := .waiting, requests := (s.links i).requests ++ [message] }).record
                  (.call (s.op i)))
          | none => some (s.setLink i { s.links i with main := .thrown })
      | _, _ => none
  | .handle i =>
      match (s.links i).handler, (s.links i).requests with
      | .idle, message :: rest => handle path s i message rest
      | _, _ => none
  | .get i =>
      match (s.links i).handler with
      | .getting key =>
          -- a key that is not there leaves the empty string in `value`
          let value := (s.server.storage.get key).getD []
          some ((s.setLink i { s.links i with handler := .answering (readResponse value) }).record
            (.commit (s.op i)))
      | _ => none
  | .insert i =>
      if (s.links i).handler = .setting then
        (Runtime.step path s.server (.insert i)).map fun server =>
          { s.record (.commit (s.op i)) with server := server }
      else none
  | .mark i =>
      if (s.links i).handler = .setting then
        (Runtime.step path s.server (.mark i)).map fun server =>
          { s.setLink i { s.links i with handler := .answering writeResponse } with
            server := server }
      else none
  | .reply i =>
      match (s.links i).handler with
      | .answering response =>
          some (s.setLink i { s.links i with
            handler := .idle, responses := (s.links i).responses ++ [response] })
      | _ => none
  | .receive i =>
      match (s.links i).main, (s.links i).todo, (s.links i).responses with
      | .waiting, command :: todo, message :: rest => some (receive s i command todo message rest)
      | _, _, _ => none
  | .sync e =>
      if isSync e = true then
        (Runtime.step path s.server e).map fun server => { s with server := server }
      else none

variable {path : String} {s : State nclients} {i : Fin nclients}

theorem handle_get {key : Str} {rest : List Str}
    (hsmall : Message.Small ⟨ECMD.READ_REQUEST, key⟩) :
    handle path s i (Message.frame ⟨ECMD.READ_REQUEST, key⟩) rest =
      some (s.setLink i { s.links i with requests := rest, handler := .getting key }) := by
  simp only [handle, Message.ofBytes_frame hsmall.fits, Message.contentView_frame hsmall.fits]
  rfl

theorem handle_set {args : Str} {rest : List Str}
    (hsmall : Message.Small ⟨ECMD.WRITE_REQUEST, setContent args⟩) :
    handle path s i (Message.frame ⟨ECMD.WRITE_REQUEST, setContent args⟩) rest =
      (Runtime.step path s.server (.begin i (splitKeyValue args).1 (splitKeyValue args).2)).map
        fun server => { s.setLink i { s.links i with requests := rest, handler := .setting } with
          server := server } := by
  simp only [handle, Message.ofBytes_frame hsmall.fits, requestPair_set hsmall]
  rfl

end GJServer.System
