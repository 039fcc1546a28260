import GJServer.System.Connections
import GJServer.System.Refinement

/-!
What clients that lose connections get byte by byte is what they get from the attempts of
`System.Attempts`: of the requests that go out whole or in part the session of the server
handles whole ones, each once, in the order of the connection, and late ones too.
-/

namespace GJServer.System.Connections

open Library Exec Linearization Net KVStorage Server GJServer.Client
open Attempts (Attempt)

variable {nclients : ℕ} {c c' : State nclients} {a a' : Attempts.State nclients}
variable {i : Fin nclients} {b : Attempts.Client nclients} {p p' : Peer nclients}
variable {x x' : Sessions.Session} {file : Str} {commands : Fin nclients → List TCommandPair}
variable {k n : ℕ}

theorem Waits.of_ready {q : Attempt nclients} {stage : Attempts.Stage}
    {unhandled : List (Attempt nclients × Str)} {responses : List Str}
    (h : Waits q .ready stage unhandled responses) :
    stage = .ready ∧ unhandled = [] ∧ responses = [] := by
  cases h
  exact ⟨rfl, rfl, rfl⟩

theorem Waits.of_waiting {q : Attempt nclients} {stage : Attempts.Stage}
    {unhandled : List (Attempt nclients × Str)} {responses : List Str}
    (h : Waits q .waiting stage unhandled responses) :
    (∃ message, stage = .requested message ∧ unhandled = [(q, message)]) ∨
      ∃ response, stage = .answered response ∧ unhandled = [] := by
  cases h with
  | requested message => exact Or.inl ⟨message, rfl, rfl⟩
  | answered response => exact Or.inr ⟨response, rfl, rfl⟩

theorem Waits.of_unhandled {q : Attempt nclients} {main : Main} {stage : Attempts.Stage}
    {first : Attempt nclients × Str} {rest : List (Attempt nclients × Str)}
    {responses : List Str} (h : Waits q main stage (first :: rest) responses) :
    main = .waiting ∧ stage = .requested first.2 ∧ first.1 = q ∧ responses = [] := by
  cases h
  exact ⟨rfl, rfl, rfl, rfl⟩

theorem Waits.of_response {q : Attempt nclients} {main : Main} {stage : Attempts.Stage}
    {unhandled : List (Attempt nclients × Str)} {response : Str} {rest : List Str}
    (h : Waits q main stage unhandled (response :: rest)) :
    main = .waiting ∧ stage = .answered response ∧ unhandled = [] ∧ rest = [] := by
  cases h
  exact ⟨rfl, rfl, rfl, rfl⟩

theorem getElem?_concat_of_ne {α : Type} {l : List α} {y : α} (h : n ≠ l.length) :
    (l ++ [y])[n]? = l[n]? := by
  rcases Nat.lt_or_gt_of_ne h with hlt | hgt
  · exact List.getElem?_append_left hlt
  · rw [List.getElem?_eq_none hgt.le, List.getElem?_eq_none]
    rwa [List.length_append, List.length_singleton]

/-- A new connection, and a session for it. -/
theorem refines_connect (h : Refines c a) (hstep : step c (.connect i) = some c') :
    Refines c' a := by
  simp only [step] at hstep
  split at hstep
  · cases hstep
  next hnone =>
  obtain ⟨server, hserver, rfl⟩ := Option.map_eq_some_iff.mp hstep
  have hsessions : server.sessions = c.server.sessions ++ [.make] ∧
      server.storage = c.server.storage := by
    simp only [Sessions.step] at hserver
    split at hserver
    · cases hserver
    · obtain rfl := Option.some.inj hserver
      exact ⟨rfl, rfl⟩
  obtain ⟨hmain, hstage, hpending, hmax⟩ := (h.clients i).apart hnone
  set c' : State nclients := { c.setClient i { c.clients i with
    connection := some c.peers.length, session := (c.clients i).session.reconnect
    consumed := 0 } with server := server, peers := c.peers ++ [⟨i, .empty, []⟩] }
  have hat' : connectionAt c' c.peers.length = some (⟨i, .empty, []⟩, .make) := by
    refine connectionAt_eq_some.mpr ⟨List.getElem?_concat_length, ?_⟩
    show server.sessions[c.peers.length]? = _
    rw [hsessions.1, h.length]
    exact List.getElem?_concat_length
  have hother (l : ℕ) (hl : l ≠ c.peers.length) : connectionAt c' l = connectionAt c l := by
    refine connectionAt_congr (getElem?_concat_of_ne hl) ?_
    show server.sessions[l]? = _
    rw [hsessions.1]
    exact getElem?_concat_of_ne (h.length ▸ hl)
  refine h.advance (i := i) (hsessions.2.trans h.storage) h.log (List.Subset.refl _) ?_ hat' rfl
    (fun p x hp => ?_) hother (fun j hj => Function.update_of_ne hj _ _) (fun _ _ => rfl) ?_
    (fun l p x hl hi hne => ?_) (fun _ _ _ _ _ _ hq => by cases hq) ?_
  · show (c.peers ++ [_]).length = server.sessions.length
    rw [hsessions.1, List.length_append, List.length_append, h.length]
    rfl
  · have hlt := (List.getElem?_eq_some_iff.mp (connectionAt_eq_some.mp hp).1).1
    exact absurd hlt (Nat.lt_irrefl _)
  · exact ⟨Flow.start, Nat.le_refl 0, Nat.zero_le 1, fun _ hq => by cases hq⟩
  · by_cases hlk : l = c.peers.length
    · refine absurd ?_ hne
      simp only [c', State.setClient, Function.update_self, hlk]
    · rw [hother l hlk] at hl
      subst hi
      refine h.lost l p x hl ?_
      rw [hnone]
      exact fun heq => by cases heq
  · have hi := h.clients i
    refine .of_connected [] ?_ ?_ ?_ ?_ hat' rfl ?_ ?_
    all_goals simp only [c', State.setClient, Function.update_self]
    · exact hi.todo
    · exact hi.attempts
    · exact hi.results
    · exact
        { max := hmax
          bytes := by
            rw [TSession.reconnect, hpending]
            rfl
          fits := fun _ hf => by cases hf
          incomplete := by
            rw [TSession.reconnect, hpending]
            exact frameFormat.incomplete_nil
          single := Channel.single_empty
          whole := Channel.whole_empty
          consumed := Nat.le_refl 0 }
    · rw [hmain, hstage]
      exact .ready

/-- A client with a connection writes the request of its next command. -/
theorem refines_send (hcommands : ∀ i, ∀ command ∈ commands i, Sendable command)
    (h : Refines c a) (ha : Attempts.Inv file commands a)
    (hstep : step c (.send i) = some c') :
    ∃ u a', exec Attempts.step a u = some a' ∧ Refines c' a' := by
  have hi := h.clients i
  simp only [step] at hstep
  split at hstep
  swap
  · cases hstep
  next k command rest hmain hk htodo =>
  obtain ⟨p, x, responses, hat, rfl, hdown, hwaits⟩ := h.connected hk
  rw [hmain] at hwaits
  obtain ⟨hstage, hunhandled, rfl⟩ := hwaits.of_ready
  have htodo' : (a.clients p.owner).todo = command :: rest := hi.todo ▸ htodo
  have hcommand := (ha.clients p.owner).getElem?_of_todo htodo'
  obtain ⟨message, hmessage, hfits⟩ :=
    Bytes.fitsBuffer_request (hcommands _ command (List.mem_of_getElem? hcommand))
  obtain ⟨hp, hx⟩ := connectionAt_eq_some.mp hat
  have hcurrent := current_eq h ha p.owner
  simp only [hmessage, hp, Option.map_some, Option.some.injEq] at hstep
  have hframe : Attempts.step a (.send p.owner) = some ((a.setClient p.owner
      { a.clients p.owner with stage := .requested message }).record
        (.call ((a.clients p.owner).current p.owner))) := by
    simp only [Attempts.step, hstage, htodo', hmessage, Option.map_some]
  have hserves := h.serves k p x hat
  have hnew := ((ha.clients p.owner).send ha.orderly hstage hcommand hmessage).1
  set p' : Peer nclients := { p with
    up := p.up.write message
    requests := p.requests ++ [((c.clients p.owner).current p.owner, message)] } with hp'
  obtain ⟨hunhandled', hserves'⟩ := hserves.write hunhandled hfits
    (q := ((c.clients p.owner).current p.owner, message)) rfl hp'
  have hpeers : c'.peers = c.peers.set k p' := hstep ▸ rfl
  have hsessions : c'.server.sessions = c.server.sessions.set k x := hstep ▸ set_self hx
  obtain ⟨hat', hother⟩ := connectionAt_set hat hpeers hsessions
  subst hstep
  refine ⟨[.send p.owner], _, exec_cons_eq_some.mpr ⟨_, hframe, rfl⟩, ?_⟩
  refine h.advance (i := p.owner) h.storage ?_ (List.subset_append_left _ _) ?_ hat' rfl
    (fun p₀ x₀ hp₀ => ?_) hother (fun j hj => Function.update_of_ne hj _ _)
    (fun j hj => Function.update_of_ne hj _ _) ?_ (fun l p₁ x₁ hl howner hne => ?_)
    (fun l p₁ x₁ hlk hl q hq q' hq' => ?_) ?_
  · show c.log ++ _ = a.log ++ _
    rw [h.log, hcurrent]
  · exact List.length_set.trans h.length
  · obtain ⟨rfl, -⟩ := connectionAt_inj hat hp₀
    rfl
  · rw [hcurrent] at hserves'
    exact hserves'
  · have hself : ((c.setClient p.owner { c.clients p.owner with main := .waiting }).clients
        p.owner).connection = some k := by
      simp only [State.setClient, Function.update_self]
      exact hk
    have hlk : l ≠ k := fun heq => hne (heq ▸ hself)
    rw [hother l hlk] at hl
    simp only [Attempts.State.record, Attempts.State.setClient, Function.update_self]
    rw [← howner] at hk ⊢
    refine h.lost l p₁ x₁ hl ?_
    rw [hk]
    exact fun heq => hlk (Option.some.inj heq).symm
  · rcases List.mem_append.mp hq with hq | hq
    · exact fun heq => hlk (h.unique l k p₁ x₁ p x hl hat q' hq' q hq heq.symm)
    · obtain rfl := List.mem_singleton.mp hq
      rintro heq
      apply hnew
      rw [← hcurrent, show (c.clients p.owner).current p.owner = q'.1 from heq]
      exact ((h.serves l p₁ x₁ hl).called q' hq').1
  · refine .of_connected [] ?_ ?_ ?_ ?_ hat' rfl ?_ ?_
    all_goals simp only [State.record, State.setPeer, State.setClient, Attempts.State.record,
      Attempts.State.setClient, Function.update_self]
    · exact hi.todo
    · exact hi.attempts
    · exact hi.results
    · exact hk
    · exact hdown
    · rw [hunhandled', hcurrent]
      exact .requested message

/-- The socket of the client takes a part of a request. -/
theorem refines_sendSome {j : ℕ} (h : Refines c a)
    (hstep : step c (.sendSome k j n) = some c') : Refines c' a := by
  simp only [step] at hstep
  obtain ⟨p, hp, hstep⟩ := Option.bind_eq_some_iff.mp hstep
  rw [Option.ite_none_right_eq_some] at hstep
  obtain ⟨hk, hstep⟩ := hstep
  obtain ⟨up, hup, rfl⟩ := Option.map_eq_some_iff.mp hstep
  obtain ⟨p₀, x, -, hat, -⟩ := h.connected hk
  obtain ⟨hp₀, hx⟩ := connectionAt_eq_some.mp hat
  obtain rfl := Option.some.inj (hp₀.symm.trans hp)
  exact h.move hat rfl (set_self hx) rfl rfl rfl rfl rfl rfl
    ((h.serves k p₀ x hat).up.writeSome hup).1 fun _ _ _ => id

section Handled

variable (hcommands : ∀ i, ∀ command ∈ commands i, Sendable command)
  (hfile : Fits (loadText file ∅))
include hcommands hfile

/-- The server accepts a request, and answers it with one message that fits. -/
theorem resolve_request (ha : Attempts.Inv file commands a) {q : Attempt nclients}
    {message : Str} (hrequest : Attempts.IsRequest commands q message) :
    (resolveHandler a.storage message).answer = true ∧
      ∃ response, (resolveHandler a.storage message).written = [response] ∧
        FitsBuffer response := by
  obtain ⟨command, hcommand, hmessage⟩ := hrequest
  have hfits : Fits a.storage.map := by
    rw [ha.map]
    exact fits_setsOf (.of_sendable hcommands) hfile _
  cases hcommands q.client command (List.mem_of_getElem? hcommand) with
  | @get key hsmall =>
      obtain rfl := Option.some.inj ((request_get key).symm.trans hmessage)
      have hvalue : Message.Small ⟨ECMD.READ_RESPONSE, (a.storage.get key).getD []⟩ := by
        cases hget : a.storage.get key with
        | none => exact Nat.zero_le _
        | some value => exact hfits key value hget
      rw [resolveHandler_get hsmall]
      exact ⟨rfl, _, rfl, hvalue.fitsBuffer⟩
  | @set args hsmall =>
      obtain rfl := Option.some.inj ((request_set args).symm.trans hmessage)
      rw [resolveHandler_set hsmall]
      have hempty : Message.Small ⟨ECMD.WRITE_RESPONSE, []⟩ := Nat.zero_le _
      exact ⟨rfl, _, rfl, hempty.fitsBuffer⟩

end Handled

/-- An unhandled request is the one that its client waits with, or was abandoned. -/
theorem request_of_unhandled (h : Refines c a) (ha : Attempts.Inv file commands a)
    (hat : connectionAt c k = some (p, x)) {q : Attempt nclients × Str}
    (hq : q ∈ p.unhandled x) : Attempts.IsRequest commands q.1 q.2 := by
  by_cases hk : (c.clients p.owner).connection = some k
  · obtain ⟨p', x', responses, hat', -, -, hwaits⟩ := h.connected hk
    obtain ⟨rfl, rfl⟩ := connectionAt_inj hat hat'
    obtain ⟨first, rest, hunhandled⟩ := List.exists_cons_of_ne_nil (List.ne_nil_of_mem hq)
    have hone := (h.serves k p x hat).one
    rw [hunhandled] at hwaits hq hone
    obtain rfl : rest = [] := by
      apply List.eq_nil_of_length_eq_zero
      rw [List.length_cons] at hone
      omega
    obtain rfl := List.mem_singleton.mp hq
    obtain ⟨-, hstage, hcurrent, -⟩ := hwaits.of_unhandled
    obtain ⟨-, -, hrequest⟩ := (ha.clients p.owner).requested _ hstage
    rw [hcurrent]
    exact hrequest
  · have hmem := h.lost k p x hat hk q hq
    exact ((ha.clients p.owner).abandoned q hmem).2.2.2.2

theorem mem_eraseIdx_of_ne {α : Type} {l : List α} {y z : α} (hy : l[n]? = some y)
    (hz : z ∈ l) (hne : z ≠ y) : z ∈ l.eraseIdx n := by
  obtain ⟨m, hm⟩ := List.mem_iff_getElem?.mp hz
  refine List.mem_eraseIdx_iff_getElem?.mpr ⟨m, fun heq => hne ?_, hm⟩
  rw [heq, hy] at hm
  exact (Option.some.inj hm).symm

/-- The response to the only request goes onto an empty connection. -/
theorem flow_answer {session : TSession} {consumed : ℕ} {response : Str}
    (h : Flow session ⟨x.channel, consumed⟩ []) (hresponse : FitsBuffer response)
    (hchannel : x'.channel = [response].foldl Channel.write x.channel) :
    Flow session ⟨x'.channel, consumed⟩ [response] := by
  have hflow := (h.write hresponse).1
  have hsize : (THeader.ofBytes response).size.toNat = response.length := hresponse.1.2
  rw [Pipe.write, hsize, List.take_length] at hflow
  rw [hchannel]
  exact hflow

/-- What a read of a connection leaves of it. -/
theorem read_connectionAt {server : Sessions.State} (hat : connectionAt c k = some (p, x))
    (hread : Sessions.step c.server (.read k (p.up.arrived.take n)) = some server) :
    ∃ x', x.read c.server.storage (p.up.arrived.take n) = some (x', server.storage) ∧
      server.sessions = c.server.sessions.set k x' ∧
      server.served.length - c.server.served.length =
        x'.connection.frames.length - x.connection.frames.length := by
  obtain ⟨-, hx⟩ := connectionAt_eq_some.mp hat
  obtain ⟨x₀, hx₀, hmap⟩ := Option.bind_eq_some_iff.mp hread
  obtain rfl := Option.some.inj (hx.symm.trans hx₀)
  obtain ⟨⟨x', storage⟩, hread', rfl⟩ := Option.map_eq_some_iff.mp hmap
  refine ⟨x', hread', rfl, ?_⟩
  rw [List.length_append, Nat.add_sub_cancel_left, List.length_map, List.length_drop]

/-- Connection `k` when the only request `q` that was on its way has been handled. -/
structure Handled (c c' : State nclients) (k : ℕ) (p p' : Peer nclients)
    (x x' : Sessions.Session) (q : Attempt nclients × Str) (response : Str) : Prop where
  peers : c'.peers = c.peers.set k p'
  sessions : c'.server.sessions = c.server.sessions.set k x'
  clients : c'.clients = c.clients
  log : c'.log = c.log ++ [.commit q.1]
  storage : c'.server.storage = (resolveHandler c.server.storage q.2).storage
  owner : p'.owner = p.owner
  requests : p'.requests = p.requests
  before : p.unhandled x = [q]
  after : x'.connection.frames.length = x.connection.frames.length + 1
  up : Flow x'.connection.session p'.up []
  written : (resolveHandler c.server.storage q.2).written = [response]
  channel : x'.channel = [response].foldl Channel.write x.channel

section Handled

variable {q : Attempt nclients × Str} {response : Str}

theorem Handled.unhandled (hh : Handled c c' k p p' x x' q response) : p'.unhandled x' = [] := by
  have htail : p.requests.drop x.connection.frames.length = [q] := hh.before
  rw [Peer.unhandled, hh.requests, hh.after, ← List.drop_drop, htail]
  rfl

theorem Handled.serves (hh : Handled c c' k p p' x x' q response)
    {log log' : List (Mark (Attempt nclients))} (hserves : Serves log p x) (hlog : log ⊆ log') :
    Serves log' p' x' where
  up := by
    rw [hh.unhandled]
    exact hh.up
  handled := by
    have hone := congrArg List.length hh.before
    rw [Peer.unhandled, List.length_drop, List.length_singleton] at hone
    rw [hh.after, hh.requests]
    omega
  one := by
    rw [hh.unhandled]
    exact Nat.zero_le 1
  called := by
    rw [hh.requests, hh.owner]
    exact (hserves.mono hlog).called

/-- The client of the request waits for the answer, which is now underway. -/
theorem refines_process (h : Refines c a) (hat : connectionAt c k = some (p, x))
    (hh : Handled c c' k p p' x x' q response) (hfits : FitsBuffer response)
    (hk : (c.clients p.owner).connection = some k) :
    ∃ u a', exec Attempts.step a u = some a' ∧ Refines c' a' := by
  have hi := h.clients p.owner
  obtain ⟨hat', hother⟩ := connectionAt_set hat hh.peers hh.sessions
  obtain ⟨p₁, x₁, responses, hat₁, -, hdown, hwaits⟩ := h.connected hk
  obtain ⟨rfl, rfl⟩ := connectionAt_inj hat hat₁
  rw [hh.before] at hwaits
  obtain ⟨hmain, hstage, hcurrent, rfl⟩ := hwaits.of_unhandled
  have hwritten := hh.written
  rw [h.storage] at hwritten
  have hframe : Attempts.step a (.process p.owner) = some
      { (a.setClient p.owner { a.clients p.owner with stage := .answered response }).record
          (.commit ((a.clients p.owner).current p.owner)) with
        storage := (resolveHandler a.storage q.2).storage } := by
    simp only [Attempts.step, hstage, hwritten]
  refine ⟨[.process p.owner], _, exec_cons_eq_some.mpr ⟨_, hframe, rfl⟩, ?_⟩
  refine h.advance_at hat hat' hother hh.owner hh.requests ?_ ?_ (List.subset_append_left _ _) ?_
    (fun _ _ => by rw [hh.clients]) (fun j hj => Function.update_of_ne hj _ _)
    (hh.serves (h.serves k p x hat) (List.subset_append_left _ _))
    (fun l _ hl => by rwa [hh.clients]) (fun q' hq' _ => ?_) (fun hne => ?_) ?_
  · rw [hh.storage, h.storage]
  · show c'.log = a.log ++ _
    rw [hh.log, h.log, hcurrent]
  · rw [hh.peers, hh.sessions, List.length_set, List.length_set, h.length]
  · simp only [Attempts.State.record, Attempts.State.setClient, Function.update_self]
    exact hq'
  · rw [hh.clients] at hne
    exact absurd hk hne
  · refine .of_connected [response] ?_ ?_ ?_ ?_ hat' hh.owner ?_ ?_
    all_goals
      simp only [Attempts.State.record, Attempts.State.setClient, Function.update_self,
        hh.clients]
    · exact hi.todo
    · exact hi.attempts
    · exact hi.results
    · exact hk
    · exact flow_answer hdown hfits hh.channel
    · rw [hh.unhandled, hmain]
      exact .answered response

/-- The client of the request has lost the connection. -/
theorem refines_stale (h : Refines c a) (hat : connectionAt c k = some (p, x))
    (hh : Handled c c' k p p' x x' q response)
    (hk : (c.clients p.owner).connection ≠ some k) :
    ∃ u a', exec Attempts.step a u = some a' ∧ Refines c' a' := by
  obtain ⟨hat', hother⟩ := connectionAt_set hat hh.peers hh.sessions
  have hq : q ∈ p.unhandled x := hh.before ▸ List.mem_singleton_self q
  obtain ⟨m, hm⟩ := List.mem_iff_getElem?.mp (h.lost k p x hat hk q hq)
  have hframe : Attempts.step a (.stale p.owner m) = some
      { (a.setClient p.owner { a.clients p.owner with
          abandoned := (a.clients p.owner).abandoned.eraseIdx m }).record (.commit q.1) with
        storage := (resolveHandler a.storage q.2).storage } := by
    simp only [Attempts.step, hm]
  refine ⟨[.stale p.owner m], _, exec_cons_eq_some.mpr ⟨_, hframe, rfl⟩, ?_⟩
  refine h.advance_at hat hat' hother hh.owner hh.requests ?_ ?_ (List.subset_append_left _ _) ?_
    (fun _ _ => by rw [hh.clients]) (fun j hj => Function.update_of_ne hj _ _)
    (hh.serves (h.serves k p x hat) (List.subset_append_left _ _))
    (fun l _ hl => by rwa [hh.clients]) (fun q' hq' hne => ?_) (fun _ q' hq' => ?_) ?_
  · rw [hh.storage, h.storage]
  · show c'.log = a.log ++ _
    rw [hh.log, h.log]
  · rw [hh.peers, hh.sessions, List.length_set, List.length_set, h.length]
  · simp only [Attempts.State.record, Attempts.State.setClient, Function.update_self]
    refine mem_eraseIdx_of_ne hm hq' fun heq => ?_
    exact hne q (List.mem_of_mem_drop hq) (congrArg Prod.fst heq.symm)
  · rw [hh.unhandled] at hq'
    cases hq'
  · refine (h.clients p.owner).frame (by rw [hh.clients])
      (fun l hl => hother l fun heq => hk (heq ▸ hl)) ?_ ?_ ?_ ?_ ?_
    all_goals simp only [Attempts.State.record, Attempts.State.setClient, Function.update_self]
    rfl

end Handled

/-- The bytes of a request arrive at the session of the server, and the last of them let the
handler run. -/
theorem refines_arrive (hcommands : ∀ i, ∀ command ∈ commands i, Sendable command)
    (hfile : Fits (loadText file ∅)) {initial : TKVStorage} (h : Refines c a)
    (ha : Attempts.Inv file commands a) (hserver : Sessions.Inv initial c.server)
    (hstep : step c (.arrive k n) = some c') :
    ∃ u a', exec Attempts.step a u = some a' ∧ Refines c' a' := by
  simp only [step] at hstep
  obtain ⟨p, hp, hstep⟩ := Option.bind_eq_some_iff.mp hstep
  obtain ⟨x, hx, hstep⟩ := Option.bind_eq_some_iff.mp hstep
  rw [Option.ite_none_right_eq_some] at hstep
  obtain ⟨hn, hstep⟩ := hstep
  obtain ⟨server, hread, rfl⟩ := Option.map_eq_some_iff.mp hstep
  have hat : connectionAt c k = some (p, x) := connectionAt_eq_some.mpr ⟨hp, hx⟩
  have hserves := h.serves k p x hat
  obtain ⟨x', hread', hsessions, hserved⟩ := read_connectionAt hat hread
  have hresolve (q : Attempt nclients × Str) (hq : q ∈ p.unhandled x) :
      (resolveHandler c.server.storage q.2).answer = true ∧ ∃ response,
        (resolveHandler c.server.storage q.2).written = [response] ∧ FitsBuffer response := by
    rw [h.storage]
    exact resolve_request hcommands hfile ha (request_of_unhandled h ha hat hq)
  have haccepted : ∀ f ∈ (p.unhandled x).map Prod.snd,
      (resolveHandler c.server.storage f).answer = true := by
    intro f hf
    obtain ⟨q, hq, rfl⟩ := List.mem_map.mp hf
    exact (hresolve q hq).1
  rcases read_flow (hserver.sessions k x hx).parsed hserves.up haccepted hn hread' with
    ⟨hframes, hchannel, hstorage, hflow⟩ |
      ⟨frame, rest, hsplit, hframes, hchannel, hstorage, hflow⟩
  · have hnone : (p.unhandled x).take (server.served.length - c.server.served.length) = [] := by
      rw [hserved, hframes, Nat.sub_self, List.take_zero]
    refine ⟨[], a, rfl, h.move hat rfl hsessions rfl rfl hframes hstorage ?_ rfl hflow ?_⟩
    · simp only [hnone, List.map_nil, List.append_nil]
    · intro session consumed responses hdown
      rwa [hchannel]
  · obtain ⟨q, tail, hunhandled, rfl, rfl⟩ := List.map_eq_cons_iff.mp hsplit
    obtain rfl : tail = [] := by
      have hone := hserves.one
      rw [hunhandled, List.length_cons] at hone
      apply List.eq_nil_of_length_eq_zero
      omega
    have hcount : x'.connection.frames.length = x.connection.frames.length + 1 := by
      rw [hframes, List.length_append, List.length_singleton]
    obtain ⟨-, response, hwritten, hfits⟩ := hresolve q (hunhandled ▸ List.mem_singleton_self q)
    have hhandled : ((p.unhandled x).take
        (server.served.length - c.server.served.length)).map (fun q => Mark.commit q.1) =
          [.commit q.1] := by
      rw [hserved, hcount, Nat.add_sub_cancel_left, hunhandled]
      rfl
    have hh : Handled c { c.setPeer k { p with
        up := { p.up with consumed := p.up.consumed + n } } with
          server := server, log := c.log ++ [.commit q.1] } k p
        { p with up := { p.up with consumed := p.up.consumed + n } } x x' q response :=
      { peers := rfl
        sessions := hsessions
        clients := rfl
        log := rfl
        storage := hstorage
        owner := rfl
        requests := rfl
        before := hunhandled
        after := hcount
        up := hflow
        written := hwritten
        channel := hwritten ▸ hchannel }
    simp only [hhandled]
    by_cases hk : (c.clients p.owner).connection = some k
    · exact refines_process h hat hh hfits hk
    · exact refines_stale h hat hh hk

/-- A step of session `k` that no byte is read in. -/
theorem refines_session {server : Sessions.State} (h : Refines c a)
    (hx : c.server.sessions[k]? = some x) (hsessions : server.sessions = c.server.sessions.set k x')
    (hstorage : server.storage = c.server.storage) (hconnection : x'.connection = x.connection)
    (hchannel : ∀ session consumed responses, Flow session ⟨x.channel, consumed⟩ responses →
      Flow session ⟨x'.channel, consumed⟩ responses) :
    Refines { c with server := server } a := by
  obtain ⟨p, hp⟩ : ∃ p, c.peers[k]? = some p := by
    have hlt := (List.getElem?_eq_some_iff.mp hx).1
    rw [← h.length] at hlt
    exact ⟨_, List.getElem?_eq_getElem hlt⟩
  have hat : connectionAt c k = some (p, x) := connectionAt_eq_some.mpr ⟨hp, hx⟩
  refine h.move hat (set_self hp) hsessions rfl rfl ?_ hstorage rfl rfl ?_ hchannel
  · rw [hconnection]
  · rw [hconnection]
    exact (h.serves k p x hat).up

/-- The server goes on by itself: it accepts, a read or a write of it ends, a response goes
out in parts. -/
theorem refines_server {e : Sessions.Event} (h : Refines c a)
    (hstep : step c (.server e) = some c') : Refines c' a := by
  have hupdate {k : ℕ} {f : Sessions.Session → Option Sessions.Session} {server}
      (hserver : c.server.update k f = some server)
      (hf : ∀ x x', f x = some x' → x'.connection = x.connection ∧
        ∀ session consumed responses, Flow session ⟨x.channel, consumed⟩ responses →
          Flow session ⟨x'.channel, consumed⟩ responses) :
      Refines { c with server := server } a := by
    obtain ⟨x', hbind, rfl⟩ := Option.map_eq_some_iff.mp hserver
    obtain ⟨x, hx, hx'⟩ := Option.bind_eq_some_iff.mp hbind
    obtain ⟨hconnection, hchannel⟩ := hf x x' hx'
    exact refines_session h hx rfl rfl hconnection hchannel
  cases e with
  | accept => cases hstep
  | read => cases hstep
  | listen =>
      obtain ⟨server, hserver, rfl⟩ := Option.map_eq_some_iff.mp hstep
      simp only [Sessions.step] at hserver
      split at hserver
      · obtain rfl := Option.some.inj hserver
        exact ⟨h.storage, h.log, h.length, h.serves, h.lost, h.unique, fun i =>
          (h.clients i).frame rfl (fun _ _ => rfl) rfl rfl rfl rfl rfl⟩
      · cases hserver
  | acceptError =>
      obtain ⟨server, hserver, rfl⟩ := Option.map_eq_some_iff.mp hstep
      simp only [Sessions.step] at hserver
      split at hserver
      · cases hserver
      · obtain rfl := Option.some.inj hserver
        exact h
  | readError k =>
      obtain ⟨server, hserver, rfl⟩ := Option.map_eq_some_iff.mp hstep
      refine hupdate hserver fun x x' hx => ?_
      obtain ⟨-, hx'⟩ := Option.ite_none_right_eq_some.mp hx
      obtain rfl := Option.some.inj hx'
      exact ⟨rfl, fun _ _ _ => id⟩
  | writeSome k j n =>
      obtain ⟨server, hserver, rfl⟩ := Option.map_eq_some_iff.mp hstep
      refine hupdate hserver fun x x' hx => ?_
      obtain ⟨-, hsome⟩ := Option.ite_none_right_eq_some.mp hx
      obtain ⟨channel, hchannel, rfl⟩ := Option.map_eq_some_iff.mp hsome
      refine ⟨rfl, fun session consumed responses hflow => ?_⟩
      exact (hflow.writeSome (Option.map_eq_some_iff.mpr ⟨channel, hchannel, rfl⟩)).1
  | wrote k j =>
      obtain ⟨server, hserver, rfl⟩ := Option.map_eq_some_iff.mp hstep
      refine hupdate hserver fun x x' hx => ?_
      obtain ⟨-, hx'⟩ := Option.ite_none_right_eq_some.mp hx
      obtain rfl := Option.some.inj hx'
      exact ⟨rfl, fun _ _ _ => id⟩
  | writeError k j =>
      obtain ⟨server, hserver, rfl⟩ := Option.map_eq_some_iff.mp hstep
      refine hupdate hserver fun x x' hx => ?_
      obtain ⟨-, hx'⟩ := Option.ite_none_right_eq_some.mp hx
      obtain rfl := Option.some.inj hx'
      exact ⟨rfl, fun _ _ _ => id⟩

/-- The steps of a client in which nothing is sent. -/
theorem Refines.advance_client {client : Client} (h : Refines c a)
    (hk : (c.clients i).connection = some k) (hclients : c'.clients =
      Function.update c.clients i client) (hpeers : c'.peers = c.peers)
    (hserver : c'.server = c.server) (hlog : c'.log = a'.log) (hgrow : a.log ⊆ a'.log)
    (hstorage : a'.storage = a.storage) (hclients' : a'.clients = Function.update a.clients i b)
    (habandoned : ∀ q ∈ (a.clients i).abandoned, q ∈ b.abandoned)
    (hlost : client.connection = some k ∨ ∀ p x, connectionAt c k = some (p, x) →
      ∀ q ∈ p.unhandled x, q ∈ b.abandoned)
    (hfollows : Follows c' i b) : Refines c' a' := by
  obtain ⟨p, x, responses, hat, rfl, -⟩ := h.connected hk
  have hconnection (l : ℕ) : connectionAt c' l = connectionAt c l :=
    connectionAt_congr (by rw [hpeers]) (by rw [hserver])
  have hself : a'.clients p.owner = b := by rw [hclients', Function.update_self]
  refine h.advance_at hat ((hconnection k).trans hat) (fun l _ => hconnection l) rfl rfl ?_ hlog
    hgrow ?_ (fun j hj => ?_) (fun j hj => ?_) ((h.serves k p x hat).mono hgrow)
    (fun l hlk hl => ?_) (fun q hq _ => hself ▸ habandoned q hq) (fun hne q hq => ?_)
    (hself ▸ hfollows)
  · rw [hserver, hstorage, h.storage]
  · rw [hpeers, hserver, h.length]
  · rw [hclients, Function.update_of_ne hj]
  · rw [hclients', Function.update_of_ne hj]
  · exact absurd (Option.some.inj (hl.symm.trans hk)) hlk
  · rw [hself]
    rcases hlost with hsame | hlost
    · rw [hclients, Function.update_self] at hne
      exact absurd hsame hne
    · exact hlost p x hat q hq

/-- A client loses its connection while nothing of the response has been read. -/
theorem refines_lose (h : Refines c a)
    (hboundary : (c.clients i).session.bufferSize = 0) (hstep : step c (.lose i) = some c') :
    ∃ u a', exec Attempts.step a u = some a' ∧ Refines c' a' := by
  have hi := h.clients i
  simp only [step] at hstep
  split at hstep
  swap
  · cases hstep
  next k hmain hk =>
  obtain rfl := Option.some.inj hstep
  obtain ⟨p, x, responses, hat, howner, hdown, hwaits⟩ := h.connected hk
  rw [hmain] at hwaits
  have hpending : (c.clients i).session.pending = [] := by
    apply List.eq_nil_of_length_eq_zero
    rw [TSession.pending_length, hboundary]
    rfl
  have hfollows (b : Attempts.Client nclients) (hb : b.stage = .ready)
      (htodo : b.todo = (a.clients i).todo) (hattempts : b.attempts = (a.clients i).attempts + 1)
      (hresults : b.results = (a.clients i).results) : Follows (c.setClient i { c.clients i with
        main := .ready, connection := none, attempts := (c.clients i).attempts + 1 }) i b := by
    refine ⟨?_, ?_, ?_, fun _ => ?_, fun l hl => ?_⟩
    all_goals simp only [State.setClient, Function.update_self] at *
    · rw [htodo, hi.todo]
    · rw [hattempts, hi.attempts]
    · rw [hresults, hi.results]
    · exact ⟨trivial, hb, hpending, hdown.max⟩
    · cases hl
  rcases hwaits.of_waiting with ⟨message, hstage, hunhandled⟩ | ⟨response, hstage, hunhandled⟩
  · have hframe : Attempts.step a (.lose i) = some (a.setClient i { a.clients i with
        stage := .ready, attempts := (a.clients i).attempts + 1
        abandoned := (a.clients i).abandoned ++ [((a.clients i).current i, message)] }) := by
      simp only [Attempts.step, hstage]
    refine ⟨[.lose i], _, exec_cons_eq_some.mpr ⟨_, hframe, rfl⟩, ?_⟩
    refine h.advance_client hk rfl rfl rfl h.log (List.Subset.refl _) rfl rfl
      (fun q hq => List.mem_append_left _ hq) (Or.inr fun p₁ x₁ hp₁ q hq => ?_)
      (hfollows _ rfl rfl rfl rfl)
    obtain ⟨rfl, rfl⟩ := connectionAt_inj hat hp₁
    rw [hunhandled] at hq
    exact List.mem_append_right _ hq
  · have hframe : Attempts.step a (.lose i) = some (a.setClient i { a.clients i with
        stage := .ready, attempts := (a.clients i).attempts + 1 }) := by
      simp only [Attempts.step, hstage]
    refine ⟨[.lose i], _, exec_cons_eq_some.mpr ⟨_, hframe, rfl⟩, ?_⟩
    refine h.advance_client hk rfl rfl rfl h.log (List.Subset.refl _) rfl rfl
      (fun q hq => hq) (Or.inr fun p₁ x₁ hp₁ q hq => ?_) (hfollows _ rfl rfl rfl rfl)
    obtain ⟨rfl, rfl⟩ := connectionAt_inj hat hp₁
    rw [hunhandled] at hq
    cases hq

/-- The client reads, and has its answer with the last byte of the response. -/
theorem refines_receive (hfile : Fits (loadText file ∅)) (h : Refines c a)
    (ha : Attempts.Inv file commands a) (hstep : step c (.receive i n) = some c') :
    ∃ u a', exec Attempts.step a u = some a' ∧ Refines c' a' := by
  have hi := h.clients i
  simp only [step] at hstep
  obtain ⟨k, hk, hstep⟩ := Option.bind_eq_some_iff.mp hstep
  obtain ⟨x, hx, hstep⟩ := Option.bind_eq_some_iff.mp hstep
  obtain ⟨⟨down, session⟩, hread, rfl⟩ := Option.map_eq_some_iff.mp hstep
  obtain ⟨p, x₀, responses, hat, howner, hdown, hwaits⟩ := h.connected hk
  obtain ⟨hp, hx₀⟩ := connectionAt_eq_some.mp hat
  obtain rfl := Option.some.inj (hx₀.symm.trans hx)
  have hchannel : down.channel = x₀.channel := by
    obtain ⟨-, hmap⟩ := Option.ite_none_right_eq_some.mp hread
    obtain ⟨session', -, heq⟩ := Option.map_eq_some_iff.mp hmap
    obtain ⟨rfl, -⟩ := Prod.mk.inj heq
    rfl
  have hdown' : down = ⟨x₀.channel, down.consumed⟩ := hchannel ▸ rfl
  obtain ⟨-, ⟨hpart, hflow⟩ | ⟨hcomplete, rest, hresponses, hflow⟩⟩ := hdown.read hread
  · rw [if_neg hpart]
    refine ⟨[], a, rfl, ?_⟩
    refine h.advance_client hk rfl rfl rfl h.log (List.Subset.refl _) rfl
      (Function.update_eq_self i a.clients).symm (fun q hq => hq) (Or.inl hk) ?_
    refine .of_connected responses ?_ ?_ ?_ ?_ hat howner ?_ ?_
    all_goals simp only [State.setClient, Function.update_self]
    · exact hi.todo
    · exact hi.attempts
    · exact hi.results
    · exact hk
    · exact hdown' ▸ hflow
    · exact hwaits
  · rw [if_pos hcomplete]
    rw [hresponses] at hwaits
    obtain ⟨hmain, hstage, hunhandled, rfl⟩ := hwaits.of_response
    obtain ⟨-, command, hcommand, hresult⟩ := (ha.clients i).answering _ hstage
    have hbuffer : Client.resolveHandler session.buffer =
        Client.resolveHandler session.pending := by
      rw [TSession.buffer_eq,
        Client.resolveHandler_append _ ((TSession.complete_iff _).mp hcomplete)]
    obtain ⟨todo, htodo⟩ := (ha.clients i).todo_of_getElem? hcommand
    have htodo' : (c.clients i).todo = command :: todo := hi.todo.trans htodo
    have hreturned :
        (conclude command (Client.resolveHandler session.pending).result).returned = .ok true := by
      rw [hresult hfile, conclude_resultOn]
    have hframe : Attempts.step a (.answer i) = some ((a.setClient i { a.clients i with
        todo := todo, stage := .ready, attempts := (a.clients i).attempts + 1
        finished := (a.clients i).finished + 1
        results := (a.clients i).results ++
          [(Client.resolveHandler session.pending).result] }).record
            (.ret ((a.clients i).current i))) := by
      simp only [Attempts.step, hstage, htodo, hreturned]
    have hdeliver : deliver c i { c.clients i with
        consumed := down.consumed, session := session } = (c.setClient i { c.clients i with
          todo := todo, main := .ready, session := session.clear, consumed := down.consumed
          attempts := (c.clients i).attempts + 1
          results := (c.clients i).results ++
            [(Client.resolveHandler session.pending).result] }).record
              (.ret ((c.clients i).current i)) := by
      simp only [deliver, hmain, htodo', hbuffer, hreturned]
      rfl
    rw [hdeliver]
    refine ⟨[.answer i], _, exec_cons_eq_some.mpr ⟨_, hframe, rfl⟩, ?_⟩
    refine h.advance_client hk rfl rfl rfl ?_ (List.subset_append_left _ _) rfl rfl
      (fun q hq => hq) (Or.inl hk) ?_
    · show c.log ++ _ = a.log ++ _
      rw [h.log, current_eq h ha]
    · refine .of_connected [] ?_ ?_ ?_ ?_ hat howner ?_ ?_
      all_goals simp only [State.record, State.setClient, Function.update_self]
      · rw [hi.attempts]
      · rw [hi.results]
      · exact hk
      · exact hdown' ▸ hflow
      · rw [hunhandled]
        exact .ready

/-- The sessions take steps of their own. -/
theorem sessions_step {e : Event nclients} (hstep : step c e = some c') :
    c'.server = c.server ∨ ∃ e, Sessions.step c.server e = some c'.server := by
  cases e with
  | connect i =>
      simp only [step] at hstep
      split at hstep
      · cases hstep
      · obtain ⟨server, hserver, rfl⟩ := Option.map_eq_some_iff.mp hstep
        exact Or.inr ⟨_, hserver⟩
  | send i =>
      simp only [step] at hstep
      split at hstep
      · split at hstep
        · obtain ⟨p, -, rfl⟩ := Option.map_eq_some_iff.mp hstep
          exact Or.inl rfl
        · obtain rfl := Option.some.inj hstep
          exact Or.inl rfl
      · cases hstep
  | sendSome k j n =>
      obtain ⟨p, -, hstep⟩ := Option.bind_eq_some_iff.mp hstep
      obtain ⟨-, hstep⟩ := Option.ite_none_right_eq_some.mp hstep
      obtain ⟨up, -, rfl⟩ := Option.map_eq_some_iff.mp hstep
      exact Or.inl rfl
  | arrive k n =>
      obtain ⟨p, -, hstep⟩ := Option.bind_eq_some_iff.mp hstep
      obtain ⟨x, -, hstep⟩ := Option.bind_eq_some_iff.mp hstep
      obtain ⟨-, hstep⟩ := Option.ite_none_right_eq_some.mp hstep
      obtain ⟨server, hserver, rfl⟩ := Option.map_eq_some_iff.mp hstep
      exact Or.inr ⟨_, hserver⟩
  | receive i n =>
      obtain ⟨k, -, hstep⟩ := Option.bind_eq_some_iff.mp hstep
      obtain ⟨x, -, hstep⟩ := Option.bind_eq_some_iff.mp hstep
      obtain ⟨r, -, rfl⟩ := Option.map_eq_some_iff.mp hstep
      refine Or.inl ?_
      dsimp only
      split
      · unfold deliver
        split
        · dsimp only
          split <;> rfl
        · rfl
      · rfl
  | lose i =>
      simp only [step] at hstep
      split at hstep
      · obtain rfl := Option.some.inj hstep
        exact Or.inl rfl
      · cases hstep
  | server e =>
      simp only [step] at hstep
      split at hstep
      · cases hstep
      · cases hstep
      · obtain ⟨server, hserver, rfl⟩ := Option.map_eq_some_iff.mp hstep
        exact Or.inr ⟨_, hserver⟩

theorem refines_step (hcommands : ∀ i, ∀ command ∈ commands i, Sendable command)
    (hfile : Fits (loadText file ∅)) {initial : TKVStorage} {e : Event nclients}
    (h : Refines c a) (ha : Attempts.Inv file commands a)
    (hserver : Sessions.Inv initial c.server) (hboundary : AtBoundary c e)
    (hstep : step c e = some c') :
    ∃ u a', exec Attempts.step a u = some a' ∧ Refines c' a' := by
  cases e with
  | connect i => exact ⟨[], a, rfl, refines_connect h hstep⟩
  | send i => exact refines_send hcommands h ha hstep
  | sendSome k j n => exact ⟨[], a, rfl, refines_sendSome h hstep⟩
  | arrive k n => exact refines_arrive hcommands hfile h ha hserver hstep
  | receive i n => exact refines_receive hfile h ha hstep
  | lose i => exact refines_lose h hboundary hstep
  | server e => exact ⟨[], a, rfl, refines_server h hstep⟩

theorem refines_start : Refines (start file commands) (Attempts.start file commands) where
  storage := rfl
  log := rfl
  length := rfl
  serves _ _ _ h := by cases h
  lost _ _ _ h := by cases h
  unique _ _ _ _ _ _ h := by cases h
  clients _ :=
    { todo := rfl
      attempts := rfl
      results := rfl
      apart := fun _ => ⟨rfl, rfl, rfl, rfl⟩
      connected := fun _ h => by cases h }

theorem main_ne_thrown (h : Refines c a) (i : Fin nclients) : (c.clients i).main ≠ .thrown := by
  cases hk : (c.clients i).connection with
  | none =>
      rw [((h.clients i).apart hk).1]
      exact fun heq => by cases heq
  | some k =>
      obtain ⟨p, x, responses, -, -, -, hwaits⟩ := h.connected hk
      intro hmain
      rw [hmain] at hwaits
      cases hwaits

/-- The first request of client `0` arrives when its second attempt has been answered and the
other client has set the key. -/
def lateArrival : List (Event 2) :=
  [.server .listen, .connect 0, .send 0, .sendSome 0 0 11, .lose 0, .connect 0, .send 0,
    .sendSome 1 0 11, .arrive 1 8, .arrive 1 3, .server (.writeSome 1 0 8), .receive 0 8,
    .connect 1, .send 1, .sendSome 2 0 11, .arrive 2 8, .arrive 2 3,
    .server (.writeSome 2 0 8), .receive 1 8, .arrive 0 8, .arrive 0 3, .send 1,
    .sendSome 2 1 9, .arrive 2 8, .arrive 2 1, .server (.writeSome 2 1 9), .receive 1 8,
    .receive 1 1]

end GJServer.System.Connections
