import GJServer.Net.Pipe
import GJServer.Server.Sessions
import GJServer.System.Attempts

/-!
Clients that lose connections, and the sessions of their server, byte by byte.

`Reconnect` closes the socket and makes a new connection for the session of the client; on
the side of the server the old session goes on with what has gone out of the old socket, and
`Accept` makes another one. `TSession::Reconnect` leaves the buffer as it is, so that a part
of a response that has been read before the loss stays in front of the next response.

Two things take one step that take several in the program: a connection and its session of
the server are there at once, and the main thread goes on as soon as its promise has a value
or the session is connected again. A loss shows only while a command waits for its answer,
and once (compare `System.Attempts`).
-/

namespace GJServer.System.Connections

open Library Exec Linearization Net KVStorage Server GJServer.Client
open Attempts (Attempt)

/-- A connection on the side of the client `owner`, with the requests that it has passed to
`Write`. -/
structure Peer (nclients : ℕ) where
  owner : Fin nclients
  up : Pipe
  requests : List (Attempt nclients × Str)

/-- `consumed` is how much of the stream of its connection the client has read. -/
structure Client where
  todo : List TCommandPair
  main : Main
  connection : Option ℕ
  session : TSession
  consumed : ℕ
  attempts : ℕ
  results : List Result

/-- The connection `peers[k]` is that of session number `k` of the server. -/
structure State (nclients : ℕ) where
  server : Sessions.State
  peers : List (Peer nclients)
  clients : Fin nclients → Client
  log : List (Mark (Attempt nclients))

/-- `server` is a step that the server takes without its peers. -/
inductive Event (nclients : ℕ)
  | connect (i : Fin nclients)
  | send (i : Fin nclients)
  | sendSome (k j n : ℕ)
  | arrive (k n : ℕ)
  | receive (i : Fin nclients) (n : ℕ)
  | lose (i : Fin nclients)
  | server (e : Sessions.Event)

variable {nclients : ℕ}

def start (file : Str) (commands : Fin nclients → List TCommandPair) : State nclients where
  server := Sessions.start ⟨loadText file ∅, false⟩
  peers := []
  clients := fun i =>
    { todo := commands i, main := .ready, connection := none
      session := .make TSession.DEFAULT_MAX_MESSAGE_SIZE, consumed := 0
      attempts := 0, results := [] }
  log := []

def Client.current (c : Client) (i : Fin nclients) : Attempt nclients :=
  ⟨i, c.attempts, c.results.length⟩

/-- The requests that `x` has not given to the handler yet. -/
def Peer.unhandled (p : Peer nclients) (x : Sessions.Session) : List (Attempt nclients × Str) :=
  p.requests.drop x.connection.frames.length

namespace State

def setClient (s : State nclients) (i : Fin nclients) (c : Client) : State nclients :=
  { s with clients := Function.update s.clients i c }

def setPeer (s : State nclients) (k : ℕ) (p : Peer nclients) : State nclients :=
  { s with peers := s.peers.set k p }

def record (s : State nclients) (mark : Mark (Attempt nclients)) : State nclients :=
  { s with log := s.log ++ [mark] }

end State

/-- A response is complete in the buffer of client `i`. -/
def deliver (s : State nclients) (i : Fin nclients) (c : Client) : State nclients :=
  match c.main, c.todo with
  | .waiting, command :: todo =>
      let result := (Client.resolveHandler c.session.buffer).result
      match (conclude command result).returned with
      | .ok true =>
          (s.setClient i { c with
            todo := todo, main := .ready, session := c.session.clear
            attempts := c.attempts + 1, results := c.results ++ [result] }).record
              (.ret (c.current i))
      | _ => s.setClient i { c with main := .thrown }
  -- a second value for the promise of the last command
  | _, _ => s.setClient i { c with main := .thrown }

def step (s : State nclients) : Event nclients → Option (State nclients)
  | .connect i =>
      let c := s.clients i
      match c.connection with
      | some _ => none
      | none =>
          (Sessions.step s.server .accept).map fun server =>
            { s.setClient i { c with
                connection := some s.peers.length, session := c.session.reconnect
                consumed := 0 } with
              server := server, peers := s.peers ++ [⟨i, .empty, []⟩] }
  | .send i =>
      let c := s.clients i
      match c.main, c.connection, c.todo with
      | .ready, some k, command :: _ =>
          match request command with
          | some message =>
              s.peers[k]?.map fun p =>
                ((s.setClient i { c with main := .waiting }).setPeer k { p with
                  up := p.up.write message
                  requests := p.requests ++ [(c.current i, message)] }).record
                    (.call (c.current i))
          | none => some (s.setClient i { c with main := .thrown })
      | _, _, _ => none
  | .sendSome k j n =>
      s.peers[k]?.bind fun p =>
        -- nothing goes out of a socket that has been closed
        if (s.clients p.owner).connection = some k then
          (p.up.writeSome j n).map fun up => s.setPeer k { p with up := up }
        else none
  | .arrive k n =>
      s.peers[k]?.bind fun p => s.server.sessions[k]?.bind fun x =>
        if n ≤ p.up.arrived.length then
          (Sessions.step s.server (.read k (p.up.arrived.take n))).map fun server =>
            let handled := (p.unhandled x).take (server.served.length - s.server.served.length)
            { s.setPeer k { p with up := { p.up with consumed := p.up.consumed + n } } with
              server := server, log := s.log ++ handled.map fun q => .commit q.1 }
        else none
  | .receive i n =>
      let c := s.clients i
      c.connection.bind fun k => s.server.sessions[k]?.bind fun x =>
        (Pipe.read ⟨x.channel, c.consumed⟩ c.session n).map fun r =>
          let c' := { c with consumed := r.1.consumed, session := r.2 }
          if r.2.Complete then deliver s i c' else s.setClient i c'
  | .lose i =>
      let c := s.clients i
      match c.main, c.connection with
      | .waiting, some _ =>
          some (s.setClient i { c with
            main := .ready, connection := none, attempts := c.attempts + 1 })
      | _, _ => none
  | .server e =>
      match e with
      | .accept | .read .. => none
      | e => (Sessions.step s.server e).map fun server => { s with server := server }

/-- Nothing of a response has been read when the connection is lost. -/
def AtBoundary (s : State nclients) : Event nclients → Prop
  | .lose i => (s.clients i).session.bufferSize = 0
  | _ => True

instance (s : State nclients) : (e : Event nclients) → Decidable (AtBoundary s e)
  | .lose i => inferInstanceAs (Decidable ((s.clients i).session.bufferSize = 0))
  | .connect _ | .send _ | .sendSome .. | .arrive .. | .receive .. | .server _ => isTrue trivial

/-! ### What the bytes stand for -/

/-- What a client with attempt `x` does, what it does in `System.Attempts`, the request of it
that is not handled, and the response underway. -/
inductive Waits (x : Attempt nclients) :
    Main → Attempts.Stage → List (Attempt nclients × Str) → List Str → Prop
  | ready : Waits x .ready .ready [] []
  | requested (message : Str) : Waits x .waiting (.requested message) [(x, message)] []
  | answered (response : Str) : Waits x .waiting (.answered response) [] [response]

variable (c : State nclients)

/-- Connection number `k` and its session. -/
def connectionAt (k : ℕ) : Option (Peer nclients × Sessions.Session) :=
  c.peers[k]?.bind fun p => c.server.sessions[k]?.map fun x => (p, x)

structure Follows (i : Fin nclients) (b : Attempts.Client nclients) : Prop where
  todo : (c.clients i).todo = b.todo
  attempts : (c.clients i).attempts = b.attempts
  results : (c.clients i).results = b.results
  apart : (c.clients i).connection = none → (c.clients i).main = .ready ∧ b.stage = .ready ∧
    (c.clients i).session.pending = [] ∧
      (c.clients i).session.maxMessageSize = TSession.DEFAULT_MAX_MESSAGE_SIZE
  connected : ∀ k, (c.clients i).connection = some k → ∃ p x responses,
    connectionAt c k = some (p, x) ∧ p.owner = i ∧
      Flow (c.clients i).session ⟨x.channel, (c.clients i).consumed⟩ responses ∧
      Waits (b.current i) (c.clients i).main b.stage (p.unhandled x) responses

/-- A session and the requests of its peer, of which one at most is not handled. -/
structure Serves (log : List (Mark (Attempt nclients))) (p : Peer nclients)
    (x : Sessions.Session) : Prop where
  up : Flow x.connection.session p.up ((p.unhandled x).map Prod.snd)
  handled : x.connection.frames.length ≤ p.requests.length
  one : (p.unhandled x).length ≤ 1
  called : ∀ q ∈ p.requests, .call q.1 ∈ log ∧ q.1.client = p.owner

structure Refines (a : Attempts.State nclients) : Prop where
  storage : c.server.storage = a.storage
  log : c.log = a.log
  length : c.peers.length = c.server.sessions.length
  serves : ∀ k p x, connectionAt c k = some (p, x) → Serves a.log p x
  lost : ∀ k p x, connectionAt c k = some (p, x) → (c.clients p.owner).connection ≠ some k →
    ∀ q ∈ p.unhandled x, q ∈ (a.clients p.owner).abandoned
  unique : ∀ k l p x p' x', connectionAt c k = some (p, x) → connectionAt c l = some (p', x') →
    ∀ q ∈ p.requests, ∀ q' ∈ p'.requests, q.1 = q'.1 → k = l
  clients : ∀ i, Follows c i (a.clients i)

/-! ### One read of a session -/

theorem read_connection {x x' : Sessions.Session} {storage storage' : TKVStorage} {bytes : Str}
    (h : x.read storage bytes = some (x', storage')) :
    x.connection.onRead (Responses.answer storage) bytes = some x'.connection := by
  rw [Sessions.Session.read] at h
  split at h
  · cases h
  · obtain ⟨r, hstep, hr⟩ := Option.map_eq_some_iff.mp h
    obtain ⟨rfl, -⟩ := Prod.mk.inj hr
    obtain ⟨c, hread, rfl⟩ := Option.map_eq_some_iff.mp hstep
    have hserve (requests : List Str) (s : Responses.State) :
        (requests.foldl Responses.serve s).connection = s.connection := by
      induction requests generalizing s with
      | nil => rfl
      | cons request requests ih => exact ih _
    rw [hserve]
    exact hread

/-- What a session reads of the requests on their way: it has the first of them completely, and
handles it, or it is as far from that as before. -/
theorem read_flow {x x' : Sessions.Session} {storage storage' : TKVStorage} {up : Pipe} {n : ℕ}
    {frames : List Str} (hparsed : Sessions.Parsed x.received x.connection)
    (hflow : Flow x.connection.session up frames)
    (haccepted : ∀ f ∈ frames, (resolveHandler storage f).answer = true)
    (hn : n ≤ up.arrived.length)
    (hread : x.read storage (up.arrived.take n) = some (x', storage')) :
    (x'.connection.frames = x.connection.frames ∧ x'.channel = x.channel ∧
        storage' = storage ∧
        Flow x'.connection.session { up with consumed := up.consumed + n } frames) ∨
      ∃ frame rest, frames = frame :: rest ∧
        x'.connection.frames = x.connection.frames ++ [frame] ∧
        x'.channel = (resolveHandler storage frame).written.foldl Channel.write x.channel ∧
        storage' = (resolveHandler storage frame).storage ∧
        Flow x'.connection.session { up with consumed := up.consumed + n } rest := by
  obtain ⟨-, -, -, hcase⟩ := Sessions.read_cases hparsed hread
  obtain ⟨-, hne, hle, t, ht, hsession⟩ := Connection.onRead_cases (read_connection hread)
  have htaken : (up.arrived.take n).length = n := by
    rw [List.length_take]
    omega
  have hpipe : up.read x.connection.session n =
      some ({ up with consumed := up.consumed + n }, t) := by
    have hpos : 0 < n := htaken ▸ List.length_pos_iff.mpr hne
    rw [Pipe.read, if_pos ⟨hpos, htaken ▸ hle, hn⟩, ht]
    rfl
  obtain ⟨-, ⟨hpart, hflow'⟩ | ⟨hcomplete, rest, hframes, hflow'⟩⟩ := hflow.read hpipe
  · obtain ⟨-, hx'⟩ := hsession.resolve_right fun h => hpart h.1
    have hsame : x'.connection.frames = x.connection.frames := by
      rw [hx', Connection.frames, Connection.frames]
    rcases hcase with ⟨-, -, hchannel, -, hstorage⟩ | ⟨frame, hframe, -⟩
    · refine Or.inl ⟨hsame, hchannel, hstorage, ?_⟩
      rw [hx']
      exact hflow'
    · rw [hsame] at hframe
      have hlength := congrArg List.length hframe
      rw [List.length_append, List.length_singleton] at hlength
      omega
  · obtain ⟨-, d, hd, hd'⟩ := hsession.resolve_left fun h => h.1 hcomplete
    have hframe : d.frame = t.pending := by
      rw [hd]
      exact Connection.frame_dispatch t
    have hanswer : Responses.answer storage (x.connection.frames ++ [d.frame]) = true := by
      rw [Responses.answer, List.getLast?_concat, hframe]
      exact haccepted _ (hframes ▸ List.mem_cons_self)
    have hx' : x'.connection = ⟨t.clear, true, x.connection.dispatched ++ [d]⟩ := by
      rcases hd' with ⟨-, hx'⟩ | ⟨hrefused, -⟩
      · exact hx'
      · rw [hanswer] at hrefused
        cases hrefused
    have hmore : x'.connection.frames = x.connection.frames ++ [t.pending] := by
      rw [hx', Connection.frames, List.map_append, List.map_singleton, hframe]
      rfl
    rcases hcase with ⟨hsame, -⟩ | ⟨frame, hlast, -, hchannel, -, hstorage⟩
    · rw [hmore] at hsame
      have hlength := congrArg List.length hsame
      rw [List.length_append, List.length_singleton] at hlength
      omega
    · obtain rfl : t.pending = frame := by
        rw [hmore] at hlast
        exact List.singleton_inj.mp (List.append_cancel_left hlast)
      refine Or.inr ⟨t.pending, rest, hframes, hmore, hchannel, hstorage, ?_⟩
      rw [hx']
      exact hflow'

/-! ### What the others do not notice -/

variable {c : State nclients}
variable {c' : State nclients} {a a' : Attempts.State nclients} {i : Fin nclients}
variable {b b' : Attempts.Client nclients} {p p' : Peer nclients} {x x' : Sessions.Session}
variable {file : Str} {commands : Fin nclients → List TCommandPair} {k n : ℕ}

theorem connectionAt_eq_some : connectionAt c k = some (p, x) ↔
    c.peers[k]? = some p ∧ c.server.sessions[k]? = some x := by
  unfold connectionAt
  cases c.peers[k]? with
  | none => simp
  | some q => cases c.server.sessions[k]? <;> simp

theorem connectionAt_congr (hpeer : c'.peers[k]? = c.peers[k]?)
    (hsession : c'.server.sessions[k]? = c.server.sessions[k]?) :
    connectionAt c' k = connectionAt c k := by
  rw [connectionAt, connectionAt, hpeer, hsession]

theorem connectionAt_inj (h : connectionAt c k = some (p, x))
    (h' : connectionAt c k = some (p', x')) : p = p' ∧ x = x' :=
  Prod.mk.inj (Option.some.inj (h.symm.trans h'))

/-- A client with a connection. -/
theorem Follows.of_connected (responses : List Str) (htodo : (c.clients i).todo = b.todo)
    (hattempts : (c.clients i).attempts = b.attempts)
    (hresults : (c.clients i).results = b.results) (hk : (c.clients i).connection = some k)
    (hat : connectionAt c k = some (p, x)) (howner : p.owner = i)
    (hflow : Flow (c.clients i).session ⟨x.channel, (c.clients i).consumed⟩ responses)
    (hwaits : Waits (b.current i) (c.clients i).main b.stage (p.unhandled x) responses) :
    Follows c i b where
  todo := htodo
  attempts := hattempts
  results := hresults
  apart hnone := by
    rw [hk] at hnone
    cases hnone
  connected l hl := by
    obtain rfl := Option.some.inj (hk.symm.trans hl)
    exact ⟨p, x, responses, hat, howner, hflow, hwaits⟩

theorem Follows.frame (h : Follows c i b) (hclient : c'.clients i = c.clients i)
    (hconnection : ∀ k, (c.clients i).connection = some k →
      connectionAt c' k = connectionAt c k)
    (htodo : b'.todo = b.todo) (hstage : b'.stage = b.stage)
    (hcurrent : b'.current i = b.current i) (hattempts : b'.attempts = b.attempts)
    (hresults : b'.results = b.results) : Follows c' i b' where
  todo := by rw [hclient, htodo, h.todo]
  attempts := by rw [hclient, hattempts, h.attempts]
  results := by rw [hclient, hresults, h.results]
  apart := by
    rw [hclient, hstage]
    exact h.apart
  connected := by
    rw [hclient, hstage, hcurrent]
    intro k hk
    rw [hconnection k hk]
    exact h.connected k hk

theorem Serves.mono {log log' : List (Mark (Attempt nclients))} (h : Serves log p x)
    (hlog : log ⊆ log') : Serves log' p x where
  up := h.up
  handled := h.handled
  one := h.one
  called q hq := (h.called q hq).imp_left fun hcall => hlog hcall

/-- The peer passes a request to `Write`. -/
theorem Serves.write {log : List (Mark (Attempt nclients))} {q : Attempt nclients × Str}
    (h : Serves log p x) (hunhandled : p.unhandled x = []) (hfits : FitsBuffer q.2)
    (howner : q.1.client = p.owner)
    (hp : p' = { p with up := p.up.write q.2, requests := p.requests ++ [q] }) :
    p'.unhandled x = [q] ∧ Serves (log ++ [.call q.1]) p' x := by
  subst hp
  have hmore : Peer.unhandled
      { p with up := p.up.write q.2, requests := p.requests ++ [q] } x = [q] := by
    rw [Peer.unhandled] at hunhandled ⊢
    rw [List.drop_append_of_le_length h.handled, hunhandled, List.nil_append]
  refine ⟨hmore, ?_, ?_, ?_, fun q' hq' => ?_⟩
  · have hflow := h.up
    rw [hunhandled, List.map_nil] at hflow
    rw [hmore, List.map_singleton]
    exact (hflow.write hfits).1
  · rw [List.length_append]
    exact h.handled.trans (Nat.le_add_right ..)
  · rw [hmore]
    exact Nat.le_refl 1
  · rcases List.mem_append.mp hq' with hq' | hq'
    · exact (h.called q' hq').imp_left (List.mem_append_left _)
    · obtain rfl := List.mem_singleton.mp hq'
      exact ⟨List.mem_append_right _ (List.mem_singleton_self _), howner⟩

/-- A step of client `i`, at connection number `k` of it. -/
theorem Refines.advance (h : Refines c a)
    (hstorage : c'.server.storage = a'.storage) (hlog : c'.log = a'.log)
    (hgrow : a.log ⊆ a'.log) (hlength : c'.peers.length = c'.server.sessions.length)
    (hat : connectionAt c' k = some (p, x)) (howner : p.owner = i)
    (hbefore : ∀ p x, connectionAt c k = some (p, x) → p.owner = i)
    (hconnection : ∀ l ≠ k, connectionAt c' l = connectionAt c l)
    (hclients : ∀ j ≠ i, c'.clients j = c.clients j)
    (hclients' : ∀ j ≠ i, a'.clients j = a.clients j) (hserves : Serves a'.log p x)
    (hlost : ∀ l p x, connectionAt c' l = some (p, x) → p.owner = i →
      (c'.clients i).connection ≠ some l → ∀ q ∈ p.unhandled x,
        q ∈ (a'.clients i).abandoned)
    (hunique : ∀ l p' x', l ≠ k → connectionAt c l = some (p', x') →
      ∀ q ∈ p.requests, ∀ q' ∈ p'.requests, q.1 ≠ q'.1)
    (hfollows : Follows c' i (a'.clients i)) : Refines c' a' where
  storage := hstorage
  log := hlog
  length := hlength
  serves l p' x' hl := by
    by_cases hlk : l = k
    · subst hlk
      obtain ⟨rfl, rfl⟩ := connectionAt_inj hat hl
      exact hserves
    · rw [hconnection l hlk] at hl
      exact (h.serves l p' x' hl).mono hgrow
  lost l p' x' hl hne := by
    by_cases hi : p'.owner = i
    · rw [hi] at hne ⊢
      exact hlost l p' x' hl hi hne
    · have hlk : l ≠ k := by
        rintro rfl
        obtain ⟨rfl, -⟩ := connectionAt_inj hat hl
        exact hi howner
      rw [hconnection l hlk] at hl
      rw [hclients _ hi] at hne
      rw [hclients' _ hi]
      exact h.lost l p' x' hl hne
  unique l m p₁ x₁ p₂ x₂ hl hm q hq q' hq' heq := by
    by_cases hlk : l = k
    · subst hlk
      obtain ⟨rfl, rfl⟩ := connectionAt_inj hat hl
      by_contra hml
      rw [hconnection m (Ne.symm hml)] at hm
      exact hunique m p₂ x₂ (Ne.symm hml) hm q hq q' hq' heq
    · rw [hconnection l hlk] at hl
      by_cases hmk : m = k
      · subst hmk
        obtain ⟨rfl, rfl⟩ := connectionAt_inj hat hm
        exact absurd heq.symm (hunique l p₁ x₁ hlk hl q' hq' q hq)
      · rw [hconnection m hmk] at hm
        exact h.unique l m p₁ x₁ p₂ x₂ hl hm q hq q' hq' heq
  clients j := by
    by_cases hj : j = i
    · exact hj ▸ hfollows
    · rw [hclients' j hj]
      refine (h.clients j).frame (hclients j hj) (fun l hl => ?_) rfl rfl rfl rfl rfl
      obtain ⟨p', x', -, hl', howner', -⟩ := (h.clients j).connected l hl
      refine hconnection l fun hlk => hj ?_
      rw [← howner', ← hbefore p' x' (hlk ▸ hl')]

/-- A step of client `p.owner` at its connection number `k`, at which it writes nothing. -/
theorem Refines.advance_at (h : Refines c a) (hat : connectionAt c k = some (p, x))
    (hat' : connectionAt c' k = some (p', x'))
    (hother : ∀ l ≠ k, connectionAt c' l = connectionAt c l)
    (howner : p'.owner = p.owner) (hrequests : p'.requests = p.requests)
    (hstorage : c'.server.storage = a'.storage) (hlog : c'.log = a'.log)
    (hgrow : a.log ⊆ a'.log) (hlength : c'.peers.length = c'.server.sessions.length)
    (hclients : ∀ j ≠ p.owner, c'.clients j = c.clients j)
    (hclients' : ∀ j ≠ p.owner, a'.clients j = a.clients j) (hserves : Serves a'.log p' x')
    (hstays : ∀ l ≠ k, (c.clients p.owner).connection = some l →
      (c'.clients p.owner).connection = some l)
    (habandoned : ∀ q ∈ (a.clients p.owner).abandoned, (∀ q' ∈ p.requests, q'.1 ≠ q.1) →
      q ∈ (a'.clients p.owner).abandoned)
    (hlost : (c'.clients p.owner).connection ≠ some k → ∀ q ∈ p'.unhandled x',
      q ∈ (a'.clients p.owner).abandoned)
    (hfollows : Follows c' p.owner (a'.clients p.owner)) : Refines c' a' := by
  have hunique (l : ℕ) (p₁ : Peer nclients) (x₁ : Sessions.Session) (hlk : l ≠ k)
      (hl : connectionAt c l = some (p₁, x₁)) : ∀ q ∈ p.requests, ∀ q' ∈ p₁.requests,
        q.1 ≠ q'.1 := fun q hq q' hq' heq =>
    hlk (h.unique l k p₁ x₁ p x hl hat q' hq' q hq heq.symm)
  refine h.advance hstorage hlog hgrow hlength hat' howner (fun p₁ x₁ hp₁ => ?_) hother hclients
    hclients' hserves (fun l p₁ x₁ hl hi hne q hq => ?_) (hrequests ▸ hunique) hfollows
  · obtain ⟨rfl, -⟩ := connectionAt_inj hat hp₁
    rfl
  · by_cases hlk : l = k
    · subst hlk
      obtain ⟨rfl, rfl⟩ := connectionAt_inj hat' hl
      exact hlost hne q hq
    · rw [hother l hlk] at hl
      refine habandoned q ?_ fun q' hq' => hunique l p₁ x₁ hlk hl q' hq' q ?_
      · have hne' : (c.clients p.owner).connection ≠ some l := fun heq => hne (hstays l hlk heq)
        rw [← hi] at hne' ⊢
        exact h.lost l p₁ x₁ hl hne' q hq
      · exact List.mem_of_mem_drop hq

/-- Connection `k` gets another end `p'` and session `x'`, and nothing else changes there. -/
theorem connectionAt_set (hat : connectionAt c k = some (p, x))
    (hpeers : c'.peers = c.peers.set k p')
    (hsessions : c'.server.sessions = c.server.sessions.set k x') :
    connectionAt c' k = some (p', x') ∧ ∀ l ≠ k, connectionAt c' l = connectionAt c l := by
  obtain ⟨hp, hx⟩ := connectionAt_eq_some.mp hat
  have hlt := (List.getElem?_eq_some_iff.mp hp).1
  have hlt' := (List.getElem?_eq_some_iff.mp hx).1
  refine ⟨connectionAt_eq_some.mpr ⟨?_, ?_⟩, fun l hl => connectionAt_congr ?_ ?_⟩
  · rw [hpeers, List.getElem?_set_self hlt]
  · rw [hsessions, List.getElem?_set_self hlt']
  · rw [hpeers, List.getElem?_set_ne (Ne.symm hl)]
  · rw [hsessions, List.getElem?_set_ne (Ne.symm hl)]

theorem set_self {α : Type} {l : List α} {y : α} (h : l[k]? = some y) : l = l.set k y := by
  obtain ⟨hlt, rfl⟩ := List.getElem?_eq_some_iff.mp h
  exact (List.set_getElem_self hlt).symm

/-- Bytes move on connection number `k`, and no message is handled. -/
theorem Refines.move (h : Refines c a) (hat : connectionAt c k = some (p, x))
    (hpeers : c'.peers = c.peers.set k p')
    (hsessions : c'.server.sessions = c.server.sessions.set k x')
    (howner : p'.owner = p.owner) (hrequests : p'.requests = p.requests)
    (hframes : x'.connection.frames = x.connection.frames)
    (hstorage : c'.server.storage = c.server.storage) (hlog : c'.log = c.log)
    (hclients : c'.clients = c.clients)
    (hup : Flow x'.connection.session p'.up ((p.unhandled x).map Prod.snd))
    (hdown : ∀ session consumed responses, Flow session ⟨x.channel, consumed⟩ responses →
      Flow session ⟨x'.channel, consumed⟩ responses) : Refines c' a := by
  obtain ⟨hat', hother⟩ := connectionAt_set hat hpeers hsessions
  have hunhandled : p'.unhandled x' = p.unhandled x := by
    rw [Peer.unhandled, Peer.unhandled, hrequests, hframes]
  have hserves := h.serves k p x hat
  refine h.advance_at hat hat' hother howner hrequests (hstorage.trans h.storage)
    (hlog.trans h.log) (List.Subset.refl _) ?_ (fun _ _ => by rw [hclients]) (fun _ _ => rfl)
    ⟨hunhandled ▸ hup, hframes ▸ hrequests ▸ hserves.handled, hunhandled ▸ hserves.one, ?_⟩
    (fun l _ hl => by rwa [hclients]) (fun q hq _ => hq) ?_ ?_
  · rw [hpeers, hsessions, List.length_set, List.length_set, h.length]
  · rw [hrequests, howner]
    exact hserves.called
  · rw [hclients, hunhandled]
    exact h.lost k p x hat
  · have hi := h.clients p.owner
    refine ⟨hclients ▸ hi.todo, hclients ▸ hi.attempts, hclients ▸ hi.results,
      hclients ▸ hi.apart, fun l hl => ?_⟩
    rw [hclients] at hl ⊢
    obtain ⟨p₁, x₁, responses, hl', howner', hflow, hwaits⟩ := hi.connected l hl
    by_cases hlk : l = k
    · subst hlk
      obtain ⟨rfl, rfl⟩ := connectionAt_inj hat hl'
      exact ⟨p', x', responses, hat', howner, hdown _ _ _ hflow, hunhandled ▸ hwaits⟩
    · exact ⟨p₁, x₁, responses, (hother l hlk).trans hl', howner', hflow, hwaits⟩

/-- The connection of a client that has one. -/
theorem Refines.connected (h : Refines c a) (hk : (c.clients i).connection = some k) :
    ∃ p x responses, connectionAt c k = some (p, x) ∧ p.owner = i ∧
      Flow (c.clients i).session ⟨x.channel, (c.clients i).consumed⟩ responses ∧
      Waits ((a.clients i).current i) (c.clients i).main (a.clients i).stage (p.unhandled x)
        responses := (h.clients i).connected k hk

theorem current_eq (h : Refines c a) (ha : Attempts.Inv file commands a) (i : Fin nclients) :
    (c.clients i).current i = (a.clients i).current i := by
  rw [Client.current, Attempts.Client.current, (h.clients i).attempts, (h.clients i).results,
    (ha.clients i).results]

end GJServer.System.Connections
