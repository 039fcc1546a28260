import GJServer.Library.Linearization
import GJServer.Net.Delivery
import GJServer.Server.Requests
import GJServer.Server.Responses

/-!
All sessions of a server (`server/server.cpp`, `net/session.h`). `Accept` makes a session
of every connection, and nothing is known of the peers: they send what they like, stop in
the middle of a message, do not wait for their answers, and go away at any moment. Only runs
in which every message stays inside the buffer of its session are in the model: a read that
would go on past its end has no step.

A session has no owner but the handlers of its pending operations. It begins to read when
it is made, and its responses are written by operations of their own; the handler of the
last one that ends closes the connection with it.
-/

namespace GJServer.Server.Sessions

open Library Exec Framing Linearization Net KVStorage Responses

/-- What has become of an `async_write`: its handler has not run, or has run without or
with an error. -/
inductive Outcome
  | pending
  | written
  | failed
  deriving DecidableEq

/-- `received` is what the reads have brought, and a session that is `lost` has had an
error from its last read. -/
structure Session where
  connection : Connection
  calls : List Call
  channel : Channel UInt8
  writes : List Outcome
  received : Str
  lost : Bool

/-- The task posted by the constructor of `TServer` has not run yet, or an `async_accept` is
outstanding. -/
inductive Acceptor
  | posted
  | waiting
  deriving DecidableEq

/-- `served` are the messages that the handler has been given, each with the number of its
session, in the order of its calls. -/
structure State where
  acceptor : Acceptor
  storage : TKVStorage
  sessions : List Session
  served : List (ℕ × Str)

inductive Event
  | listen
  | accept
  | acceptError
  | read (k : ℕ) (bytes : Str)
  | readError (k : ℕ)
  | writeSome (k i n : ℕ)
  | wrote (k i : ℕ)
  | writeError (k i : ℕ)

def start (storage : TKVStorage) : State where
  acceptor := .posted
  storage := storage
  sessions := []
  served := []

namespace Session

/-- `new TServerSession` and its first `Read`. -/
def make : Session where
  connection := .start (.make TSession.DEFAULT_MAX_MESSAGE_SIZE)
  calls := []
  channel := .empty
  writes := []
  received := []
  lost := false

/-- The session and the storage, as far as the handler is concerned. -/
def view (x : Session) (storage : TKVStorage) : Responses.State where
  connection := x.connection
  storage := storage
  calls := x.calls
  channel := x.channel

/-- The read completes with `bytes`, and the handler runs if they complete a message. -/
def read (x : Session) (storage : TKVStorage) (bytes : Str) : Option (Session × TKVStorage) :=
  if x.lost then none
  else
    (Responses.step (x.view storage) (.read bytes)).map fun r =>
      let new := r.channel.queued.length - x.channel.queued.length
      ({ connection := r.connection, calls := r.calls, channel := r.channel
         writes := x.writes ++ List.replicate new .pending
         received := x.received ++ bytes, lost := x.lost }, r.storage)

/-- The read completes with an error, and `ProcessDisconnect` does nothing. -/
def readError (x : Session) : Option Session :=
  if x.connection.reading ∧ x.lost = false then some { x with lost := true } else none

def writeSome (x : Session) (i n : ℕ) : Option Session :=
  if x.writes[i]? = some .pending then
    (x.channel.writeSome i n).map fun channel => { x with channel := channel }
  else none

/-- The handler of a write of which nothing is left. -/
def wrote (x : Session) (i : ℕ) : Option Session :=
  if x.writes[i]? = some .pending ∧ x.channel.rests[i]? = some [] then
    some { x with writes := x.writes.set i .written }
  else none

def writeError (x : Session) (i : ℕ) : Option Session :=
  if x.writes[i]? = some .pending then some { x with writes := x.writes.set i .failed } else none

/-- A handler of the session is still to run, and keeps it alive. -/
def Alive (x : Session) : Prop :=
  x.connection.reading = true ∧ x.lost = false ∨ Outcome.pending ∈ x.writes

instance (x : Session) : Decidable x.Alive := inferInstanceAs (Decidable (_ ∨ _))

end Session

/-- Something that happens to session `k` and not to the storage. -/
def State.update (s : State) (k : ℕ) (f : Session → Option Session) : Option State :=
  (s.sessions[k]?.bind f).map fun x => { s with sessions := s.sessions.set k x }

def step (s : State) : Event → Option State
  | .listen =>
      match s.acceptor with
      | .posted => some { s with acceptor := .waiting }
      | .waiting => none
  | .accept =>
      match s.acceptor with
      | .posted => none
      | .waiting => some { s with sessions := s.sessions ++ [.make] }
  | .acceptError =>
      -- the error is reported, and `Accept` is called again
      match s.acceptor with
      | .posted => none
      | .waiting => some s
  | .read k bytes =>
      s.sessions[k]?.bind fun x => (x.read s.storage bytes).map fun (x', storage) =>
        { s with
          storage := storage
          sessions := s.sessions.set k x'
          served := s.served ++
            (x'.connection.frames.drop x.connection.frames.length).map (Prod.mk k) }
  | .readError k => s.update k Session.readError
  | .writeSome k i n => s.update k fun x => x.writeSome i n
  | .wrote k i => s.update k fun x => x.wrote i
  | .writeError k i => s.update k fun x => x.writeError i

/-- The messages in a stream: whole frames up to the first that `VerifyRequest` rejects. -/
def requests (stream : Str) : List Str :=
  frameFormat.leading (fun frame => (THeader.ofBytes frame).verifyRequest) stream

/-- What the handler does with one message after the other. -/
def replies (storage : TKVStorage) : List (ℕ × Str) → List (ℕ × Resolved)
  | [] => []
  | (k, request) :: served =>
      let resolved := resolveHandler storage request
      (k, resolved) :: replies resolved.storage served

/-- The pair that a message sets. -/
def pairIn (request : Str) : Option (Str × Str) :=
  let header := THeader.ofBytes request
  if header.verifyRequest ∧ header.cmd = ECMD.WRITE_REQUEST then some (requestPair request)
  else none

/-- The server is one machine that is given whole messages: it gets the messages of each
stream in their order, those of different streams in any order, and nothing else. -/
structure Sequential (initial : TKVStorage) (s : State) : Prop where
  storage : s.storage = resolveAll initial (s.served.map Prod.snd)
  map : s.storage.map = applySets initial.map ((s.served.map Prod.snd).filterMap pairIn)
  requests : ∀ k x, s.sessions[k]? = some x → own k s.served = requests x.received
  messages : ∀ k x msgs, s.sessions[k]? = some x → (∀ m ∈ msgs, m.Fits ∧ m.cmd ≠ ECMD.None) →
    x.received <+: stream msgs →
      own k s.served = (arrived msgs x.received.length).map Message.frame
  responses : ∀ k x, s.sessions[k]? = some x →
    x.channel.queued = (own k (replies initial s.served)).flatMap Resolved.written
  sent : ∀ (k : ℕ) (x : Session), s.sessions[k]? = some x →
    (x.channel.stream ++ x.channel.rests.flatten).Perm x.channel.queued.flatten

/-! ### What a session reads -/

/-- The frames handed to the handler, and what is pending, are those of the bytes that have
been read. -/
structure Parsed (received : Str) (c : Connection) : Prop where
  consumed : c.Consumed received
  accepted : c.reading = true → ∀ f ∈ c.frames, (THeader.ofBytes f).verifyRequest = true
  refused : c.reading = false → ∃ fs f, c.frames = fs ++ [f] ∧
    (∀ g ∈ fs, (THeader.ofBytes g).verifyRequest = true) ∧
      (THeader.ofBytes f).verifyRequest = false
  stuck : c.reading = true → frameFormat.Stuck c.session.pending

theorem parsed_make : Parsed [] Session.make.connection where
  consumed := Connection.consumed_start _
  accepted _ f hf := by cases hf
  refused h := by cases h
  stuck _ := frameFormat.incomplete_nil.stuck

theorem Parsed.frames_eq {received : Str} {c : Connection} (h : Parsed received c) :
    c.frames = requests received := by
  have hstream := h.consumed.stream
  have hisFrame := h.consumed.isFrame
  rw [requests, ← hstream, Connection.unfinished]
  cases hreading : c.reading with
  | true =>
      rw [if_pos rfl, Format.leading_flatten hisFrame (h.accepted hreading),
        (h.stuck hreading).leading_eq_nil, List.append_nil]
  | false =>
      obtain ⟨fs, f, hframes, haccepted, hrefused⟩ := h.refused hreading
      rw [hframes] at hisFrame ⊢
      have hf : frameFormat.IsFrame f := hisFrame f (by simp)
      rw [List.flatten_append, List.flatten_singleton, List.append_assoc,
        Format.leading_flatten (fun g hg => hisFrame g (List.mem_append_left _ hg)) haccepted,
        hf.leading_append, if_neg (by simp [hrefused])]

/-- Of a stream of messages those are handled that have arrived. -/
theorem requests_stream {msgs : List Message} (hmsgs : ∀ m ∈ msgs, m.Fits ∧ m.cmd ≠ ECMD.None)
    {received : Str} (h : received <+: stream msgs) :
    requests received = (arrived msgs received.length).map Message.frame := by
  obtain ⟨r, hr, -⟩ := prefix_decomposes Message.frame msgs
    (fun m hm => Message.isFrame (hmsgs m hm).1) h
  refine hr.leading_eq fun f hf => ?_
  obtain ⟨m, hm, rfl⟩ := List.mem_map.mp hf
  obtain ⟨hfits, hcmd⟩ := hmsgs m (mem_of_mem_wholeItems hm)
  rw [Message.ofBytes_frame hfits]
  exact verifyRequest_of_cmd rfl hcmd

/-- Bytes that do not complete the message leave it incomplete, or its header announces
less than a header. -/
theorem stuck_receive {t t' : TSession} {bytes : Str} (h : frameFormat.Stuck t.pending)
    (hlen : bytes.length ≤ t.readsize.toNat) (ht : t.receive bytes = some t')
    (hcomplete : ¬t'.Complete) : frameFormat.Stuck t'.pending := by
  obtain ⟨-, hsize', hpending⟩ := TSession.receive_eq_some ht
  intro hheader
  by_contra hlt
  rw [Nat.not_lt] at hlt
  have hsize : 8 ≤ (THeader.ofBytes t'.pending).size.toNat := hheader
  have hle : (THeader.ofBytes t'.pending).size.toNat ≤ t'.pending.length := hlt
  refine hcomplete ((TSession.complete_iff t').mpr ⟨hsize.trans hle, le_antisymm hle ?_⟩)
  rw [TSession.pending_length, hsize']
  by_cases hold : 8 ≤ t.bufferSize.toNat
  · -- the header was there before, and the read asked for the rest of the message
    have hsame : THeader.ofBytes t'.pending = THeader.ofBytes t.pending := by
      rw [hpending]
      exact THeader.ofBytes_append bytes (by rwa [TSession.pending_length])
    rw [hsame] at hsize
    have hlt' : t.pending.length < (THeader.ofBytes t.pending).size.toNat := h hsize
    have hassert : t.ReadAssert := (TSession.readAssert_iff t).mpr fun _ => hlt'
    have hsum := TSession.bufferSize_add_readsize hassert
    have hnot : ¬t.bufferSize < 8 := by
      rw [UInt32.not_lt]
      exact (TSession.le_bufferSize_iff t).mpr hold
    rw [if_neg hnot, TSession.header_eq hold, ← hsame] at hsum
    show t.bufferSize.toNat + bytes.length ≤ (THeader.ofBytes t'.pending).size.toNat
    omega
  · have hsum : t.bufferSize.toNat + t.readsize.toNat = 8 := by
      have hassert : t.ReadAssert := fun hge =>
        absurd ((TSession.le_bufferSize_iff t).mp hge) hold
      rw [TSession.bufferSize_add_readsize hassert, if_pos]
      rw [← UInt32.not_le]
      exact fun hge => hold ((TSession.le_bufferSize_iff t).mp hge)
    show t.bufferSize.toNat + bytes.length ≤ (THeader.ofBytes t'.pending).size.toNat
    omega

theorem parsed_onRead {storage : TKVStorage} {received bytes : Str} {c c' : Connection}
    (h : Parsed received c) (hread : c.onRead (answer storage) bytes = some c') :
    Parsed (received ++ bytes) c' := by
  have hconsumed := Connection.consumed_onRead h.consumed hread
  obtain ⟨hreading, -, hlen, t, ht, hcase⟩ := Connection.onRead_cases hread
  have hanswer {d : Dispatch} : answer storage (c.frames ++ [d.frame]) =
      (THeader.ofBytes d.frame).verifyRequest := by
    rw [answer, List.getLast?_concat]
    exact answer_resolveHandler storage d.frame
  have hframes (t : TSession) (reading : Bool) (d : Dispatch) :
      Connection.frames ⟨t, reading, c.dispatched ++ [d]⟩ = c.frames ++ [d.frame] :=
    List.map_append
  rcases hcase with ⟨hcomplete, rfl⟩ | ⟨-, d, -, ⟨haccepted, rfl⟩ | ⟨hrefused, rfl⟩⟩
  · exact ⟨hconsumed, fun _ => h.accepted hreading, (fun hfalse => by cases hfalse),
      fun _ => stuck_receive (h.stuck hreading) hlen ht hcomplete⟩
  · refine ⟨hconsumed, fun _ f hf => ?_, (fun hfalse => by cases hfalse),
      fun _ => frameFormat.incomplete_nil.stuck⟩
    rw [hframes] at hf
    rcases List.mem_append.mp hf with hf | hf
    · exact h.accepted hreading f hf
    · rw [List.mem_singleton.mp hf, ← hanswer]
      exact haccepted
  · refine ⟨hconsumed, (fun htrue => by cases htrue), fun _ => ?_, fun htrue => by cases htrue⟩
    exact ⟨c.frames, d.frame, hframes .., h.accepted hreading, hanswer.symm.trans hrefused⟩

/-- A read brings a part of a message, or the end of one, which is handled at once. -/
theorem read_cases {x x' : Session} {storage storage' : TKVStorage} {bytes : Str}
    (hparsed : Parsed x.received x.connection)
    (h : x.read storage bytes = some (x', storage')) :
    (x.connection.reading = true ∧ x.lost = false) ∧
      Parsed x'.received x'.connection ∧ x'.received = x.received ++ bytes ∧
      ((x'.connection.frames = x.connection.frames ∧ x'.calls = x.calls ∧
          x'.channel = x.channel ∧ x'.writes = x.writes ∧ storage' = storage) ∨
        ∃ frame, x'.connection.frames = x.connection.frames ++ [frame] ∧
          x'.calls.map Call.resolved =
            x.calls.map Call.resolved ++ [resolveHandler storage frame] ∧
          x'.channel = (resolveHandler storage frame).written.foldl Channel.write x.channel ∧
          x'.writes = x.writes ++
            List.replicate (resolveHandler storage frame).written.length .pending ∧
          storage' = (resolveHandler storage frame).storage) := by
  rw [Session.read] at h
  split at h
  · cases h
  next hlost =>
  obtain ⟨r, hstep, hr⟩ := Option.map_eq_some_iff.mp h
  obtain ⟨rfl, rfl⟩ := Prod.mk.inj hr
  obtain ⟨c, hread, hc⟩ := Option.map_eq_some_iff.mp hstep
  have hparsed' := parsed_onRead hparsed hread
  obtain ⟨hreading, -, -, session, -, hcase⟩ := Connection.onRead_cases hread
  refine ⟨⟨hreading, Bool.not_eq_true _ ▸ hlost⟩, ?_⟩
  have hshape : c = ⟨session, true, x.connection.dispatched⟩ ∨
      ∃ session reading d, c = ⟨session, reading, x.connection.dispatched ++ [d]⟩ := by
    rcases hcase with ⟨-, rfl⟩ | ⟨-, d, -, ⟨-, rfl⟩ | ⟨-, rfl⟩⟩
    · exact Or.inl rfl
    · exact Or.inr ⟨_, _, d, rfl⟩
    · exact Or.inr ⟨_, _, d, rfl⟩
  rcases hshape with rfl | ⟨session, reading, d, rfl⟩
  · simp only [Session.view, List.drop_length, List.map_nil, List.foldl_nil] at hc
    subst hc
    refine ⟨hparsed', rfl, Or.inl ⟨rfl, rfl, rfl, ?_, rfl⟩⟩
    rw [Nat.sub_self, List.replicate_zero, List.append_nil]
  · simp only [Session.view, List.drop_left, List.map_singleton, List.foldl_cons,
      List.foldl_nil] at hc
    subst hc
    have hframe : frameFormat.IsFrame d.frame :=
      hparsed'.consumed.isFrame d.frame (by simp [Connection.frames])
    have hmemory : resolveHandler storage d.memory = resolveHandler storage d.frame := by
      rw [← resolveHandler_append (d.memory.drop d.received.toNat) hframe, Dispatch.frame,
        List.take_append_drop]
    refine ⟨hparsed', rfl, Or.inr ⟨d.frame, List.map_append, ?_, ?_, ?_, ?_⟩⟩
    · simp only [serve, List.map_append, List.map_singleton, Call.resolved, hmemory]
    · simp only [serve, hmemory]
    · simp only [serve, hmemory, queued_writeAll, List.length_append, Nat.add_sub_cancel_left]
    · simp only [serve, hmemory]

/-! ### What a run keeps -/

theorem resolveAll_concat (initial : TKVStorage) (requests : List Str) (request : Str) :
    resolveAll initial (requests ++ [request]) =
      (resolveHandler (resolveAll initial requests) request).storage := List.foldl_append

/-- Only write requests change the map. -/
theorem map_resolveAll_pairIn (initial : TKVStorage) (requests : List Str) :
    (resolveAll initial requests).map = applySets initial.map (requests.filterMap pairIn) := by
  induction requests using List.reverseRecOn with
  | nil => rfl
  | append_singleton requests request ih =>
      rw [resolveAll_concat, List.filterMap_append, applySets_append, ← ih, List.filterMap_cons,
        List.filterMap_nil, pairIn]
      generalize resolveAll initial requests = storage
      simp only [resolveHandler]
      cases (THeader.ofBytes request).verifyRequest with
      | false => rfl
      | true =>
          by_cases hwrite : (THeader.ofBytes request).cmd = ECMD.WRITE_REQUEST
          · rw [hwrite]
            rfl
          · simp only [Bool.not_true, Bool.false_eq_true, if_false, hwrite, and_false]
            split <;> rfl

theorem replies_concat (initial : TKVStorage) (served : List (ℕ × Str)) (k : ℕ)
    (request : Str) : replies initial (served ++ [(k, request)]) = replies initial served ++
      [(k, resolveHandler (resolveAll initial (served.map Prod.snd)) request)] := by
  induction served generalizing initial with
  | nil => rfl
  | cons p served ih =>
      show (p.1, resolveHandler initial p.2) ::
          replies (resolveHandler initial p.2).storage (served ++ [(k, request)]) = _
      rw [ih]
      rfl

theorem rests_writeAll (messages : List Str) (channel : Channel UInt8) :
    (messages.foldl Channel.write channel).rests = channel.rests ++ messages := by
  induction messages generalizing channel with
  | nil => exact (List.append_nil _).symm
  | cons message messages ih =>
      rw [List.foldl_cons, ih, Channel.write, List.append_assoc, List.singleton_append]

/-- The session number `k`, when `served` has been handled. -/
structure Session.Inv (initial : TKVStorage) (served : List (ℕ × Str)) (k : ℕ) (x : Session) :
    Prop where
  parsed : Parsed x.received x.connection
  handled : own k served = x.connection.frames
  replies : own k (replies initial served) = x.calls.map Call.resolved
  queued : x.channel.queued = (x.calls.map Call.resolved).flatMap Resolved.written
  writes : x.writes.length = x.channel.rests.length
  conserved : x.channel.Conserved
  written : ∀ i : ℕ, x.writes[i]? = some .written → x.channel.rests[i]? = some []

structure Inv (initial : TKVStorage) (s : State) : Prop where
  storage : s.storage = resolveAll initial (s.served.map Prod.snd)
  bound : ∀ p ∈ s.served, p.1 < s.sessions.length
  sessions : ∀ (k : ℕ) (x : Session), s.sessions[k]? = some x → x.Inv initial s.served k

variable {initial : TKVStorage} {s s' : State} {served : List (ℕ × Str)} {k : ℕ}
variable {x x' : Session} {i n : ℕ}

theorem inv_start (initial : TKVStorage) : Inv initial (start initial) where
  storage := rfl
  bound _ h := by cases h
  sessions _ _ h := by cases h

theorem Session.Inv.make (hserved : ∀ p ∈ served, p.1 < k) :
    Session.make.Inv initial served k := by
  have hown {β : Type} (l : List (ℕ × β)) (hl : ∀ p ∈ l, p.1 < k) : own k l = [] := by
    refine List.filterMap_eq_nil_iff.mpr fun p hp => if_neg ?_
    exact (hl p hp).ne
  refine ⟨parsed_make, hown served hserved, hown _ ?_, rfl, rfl, Channel.conserved_empty,
    fun i h => by cases h⟩
  clear hown
  induction served generalizing initial with
  | nil => exact fun _ h => by cases h
  | cons p served ih =>
      refine List.forall_mem_cons.mpr ⟨hserved p List.mem_cons_self, ?_⟩
      exact ih fun q hq => hserved q (List.mem_cons_of_mem _ hq)

theorem Session.Inv.readError (h : x.Inv initial served k) (hstep : x.readError = some x') :
    x'.Inv initial served k := by
  obtain ⟨-, hx'⟩ := Option.ite_none_right_eq_some.mp hstep
  obtain rfl := Option.some.inj hx'
  exact ⟨h.parsed, h.handled, h.replies, h.queued, h.writes, h.conserved, h.written⟩

theorem Session.Inv.writeSome (h : x.Inv initial served k)
    (hstep : x.writeSome i n = some x') : x'.Inv initial served k := by
  obtain ⟨hpending, hsome⟩ := Option.ite_none_right_eq_some.mp hstep
  obtain ⟨channel, hchannel, rfl⟩ := Option.map_eq_some_iff.mp hsome
  obtain ⟨rest, -, hrests⟩ := Channel.rests_writeSome hchannel
  obtain ⟨pre, rest', post, -, -, hqueued⟩ := Channel.writeSome_eq_some hchannel
  refine ⟨h.parsed, h.handled, h.replies, ?_, ?_, Channel.conserved_writeSome h.conserved hchannel,
    fun j hj => ?_⟩
  · rw [hqueued]
    exact h.queued
  · show x.writes.length = channel.rests.length
    rw [hrests, List.length_set]
    exact h.writes
  · have hne : i ≠ j := by
      rintro rfl
      cases hpending.symm.trans hj
    show channel.rests[j]? = some []
    rw [hrests, List.getElem?_set_ne hne]
    exact h.written j hj

theorem Session.Inv.wrote (h : x.Inv initial served k) (hstep : x.wrote i = some x') :
    x'.Inv initial served k := by
  obtain ⟨⟨-, hrest⟩, hx'⟩ := Option.ite_none_right_eq_some.mp hstep
  obtain rfl := Option.some.inj hx'
  refine ⟨h.parsed, h.handled, h.replies, h.queued, List.length_set.trans h.writes, h.conserved,
    fun j hj => ?_⟩
  by_cases hij : i = j
  · exact hij ▸ hrest
  · refine h.written j ?_
    rw [← hj]
    exact (List.getElem?_set_ne hij).symm

theorem Session.Inv.writeError (h : x.Inv initial served k) (hstep : x.writeError i = some x') :
    x'.Inv initial served k := by
  obtain ⟨hpending, hx'⟩ := Option.ite_none_right_eq_some.mp hstep
  obtain rfl := Option.some.inj hx'
  refine ⟨h.parsed, h.handled, h.replies, h.queued, List.length_set.trans h.writes, h.conserved,
    fun j hj => ?_⟩
  by_cases hij : i = j
  · have hlt := (List.getElem?_eq_some_iff.mp hpending).1
    rw [← hij, List.getElem?_set_self hlt] at hj
    cases hj
  · refine h.written j ?_
    rw [← hj]
    exact (List.getElem?_set_ne hij).symm

/-- A read that does not complete a message. -/
theorem Session.Inv.part (h : x.Inv initial served k) (hparsed : Parsed x'.received x'.connection)
    (hframes : x'.connection.frames = x.connection.frames) (hcalls : x'.calls = x.calls)
    (hchannel : x'.channel = x.channel) (hwrites : x'.writes = x.writes) :
    x'.Inv initial served k where
  parsed := hparsed
  handled := h.handled.trans hframes.symm
  replies := by rw [hcalls, h.replies]
  queued := by rw [hchannel, hcalls, h.queued]
  writes := by rw [hchannel, hwrites, h.writes]
  conserved := hchannel ▸ h.conserved
  written := by
    rw [hchannel, hwrites]
    exact h.written

/-- The message that a read has completed is handled. -/
theorem Session.Inv.handle (h : x.Inv initial served k) {storage : TKVStorage}
    (hstorage : storage = resolveAll initial (served.map Prod.snd)) {frame : Str}
    (hparsed : Parsed x'.received x'.connection)
    (hframes : x'.connection.frames = x.connection.frames ++ [frame])
    (hcalls : x'.calls.map Call.resolved =
      x.calls.map Call.resolved ++ [resolveHandler storage frame])
    (hchannel : x'.channel =
      (resolveHandler storage frame).written.foldl Channel.write x.channel)
    (hwrites : x'.writes = x.writes ++
      List.replicate (resolveHandler storage frame).written.length .pending) :
    x'.Inv initial (served ++ [(k, frame)]) k where
  parsed := hparsed
  handled := by rw [own_append, own_self, h.handled, hframes]
  replies := by rw [replies_concat, own_append, own_self, h.replies, hcalls, hstorage]
  queued := by
    rw [hchannel, queued_writeAll, h.queued, hcalls, List.flatMap_append, List.flatMap_singleton]
  writes := by
    rw [hwrites, hchannel, rests_writeAll, List.length_append, List.length_append, h.writes,
      List.length_replicate]
  conserved := by
    rw [hchannel]
    exact conserved_writeAll h.conserved
  written j hj := by
    rw [hwrites, List.getElem?_append] at hj
    split at hj
    · next hlt =>
        rw [hchannel, rests_writeAll, List.getElem?_append_left (h.writes ▸ hlt)]
        exact h.written j hj
    · have hmem := List.mem_of_getElem? hj
      cases List.eq_of_mem_replicate hmem

/-- What is handled for another session makes no difference. -/
theorem Session.Inv.frame (h : x.Inv initial served k) {j : ℕ} (hj : j ≠ k) (request : Str) :
    x.Inv initial (served ++ [(j, request)]) k where
  parsed := h.parsed
  handled := by rw [own_append, own_other hj, List.append_nil, h.handled]
  replies := by rw [replies_concat, own_append, own_other hj, List.append_nil, h.replies]
  queued := h.queued
  writes := h.writes
  conserved := h.conserved
  written := h.written

theorem forall_set {P : ℕ → Session → Prop} {sessions : List Session} (hk : P k x)
    (hothers : ∀ j y, k ≠ j → sessions[j]? = some y → P j y) (j : ℕ) (y : Session)
    (hy : (sessions.set k x)[j]? = some y) : P j y := by
  by_cases hkj : k = j
  · subst hkj
    obtain ⟨hlt, heq⟩ := List.getElem?_eq_some_iff.mp hy
    rw [List.getElem_set_self] at heq
    exact heq ▸ hk
  · rw [List.getElem?_set_ne hkj] at hy
    exact hothers j y hkj hy

theorem inv_update {f : Session → Option Session} (h : Inv initial s)
    (hf : ∀ x x', s.sessions[k]? = some x → f x = some x' → x'.Inv initial s.served k)
    (hstep : s.update k f = some s') : Inv initial s' := by
  obtain ⟨x', hbind, rfl⟩ := Option.map_eq_some_iff.mp hstep
  obtain ⟨x, hx, hx'⟩ := Option.bind_eq_some_iff.mp hbind
  refine ⟨h.storage, fun p hp => (h.bound p hp).trans_eq List.length_set.symm, ?_⟩
  exact forall_set (hf x x' hx hx') fun j y _ => h.sessions j y

theorem inv_read {bytes : Str} (h : Inv initial s) (hstep : step s (.read k bytes) = some s') :
    Inv initial s' := by
  obtain ⟨x, hx, hmap⟩ := Option.bind_eq_some_iff.mp hstep
  obtain ⟨⟨x', storage⟩, hread, rfl⟩ := Option.map_eq_some_iff.mp hmap
  have hsession := h.sessions k x hx
  have hk : k < s.sessions.length := (List.getElem?_eq_some_iff.mp hx).1
  obtain ⟨-, hparsed, -, hcase⟩ := read_cases hsession.parsed hread
  rcases hcase with ⟨hframes, hcalls, hchannel, hwrites, rfl⟩ |
      ⟨frame, hframes, hcalls, hchannel, hwrites, rfl⟩
  · have hdrop : x'.connection.frames.drop x.connection.frames.length = [] := by
      rw [hframes, List.drop_length]
    simp only [hdrop, List.map_nil, List.append_nil]
    refine ⟨h.storage, fun p hp => (h.bound p hp).trans_eq List.length_set.symm,
      forall_set ?_ fun j y _ => h.sessions j y⟩
    exact hsession.part hparsed hframes hcalls hchannel hwrites
  · have hdrop : x'.connection.frames.drop x.connection.frames.length = [frame] := by
      rw [hframes, List.drop_left]
    simp only [hdrop, List.map_singleton]
    refine ⟨?_, fun p hp => ?_, forall_set ?_ fun j y hkj hy => ?_⟩
    · rw [List.map_append, List.map_singleton, resolveAll_concat, ← h.storage]
    · rw [List.length_set]
      rcases List.mem_append.mp hp with hp | hp
      · exact h.bound p hp
      · rw [List.mem_singleton.mp hp]
        exact hk
    · exact hsession.handle h.storage hparsed hframes hcalls hchannel hwrites
    · exact (h.sessions j y hy).frame hkj frame

theorem inv_step {e : Event} (h : Inv initial s) (hstep : step s e = some s') :
    Inv initial s' := by
  cases e with
  | listen =>
      simp only [step] at hstep
      split at hstep
      · obtain rfl := Option.some.inj hstep
        exact ⟨h.storage, h.bound, h.sessions⟩
      · cases hstep
  | accept =>
      simp only [step] at hstep
      split at hstep
      · cases hstep
      · obtain rfl := Option.some.inj hstep
        refine ⟨h.storage, fun p hp => ?_, fun k x hx => ?_⟩
        · rw [List.length_append]
          exact (h.bound p hp).trans_le (Nat.le_add_right ..)
        · rw [List.getElem?_append] at hx
          split at hx
          · exact h.sessions k x hx
          · next hge =>
              obtain ⟨-, rfl⟩ := List.getElem?_eq_some_iff.mp hx
              rw [List.getElem_singleton]
              exact .make fun p hp => (h.bound p hp).trans_le (Nat.not_lt.mp hge)
  | acceptError =>
      simp only [step] at hstep
      split at hstep
      · cases hstep
      · obtain rfl := Option.some.inj hstep
        exact h
  | read k bytes => exact inv_read h hstep
  | readError k => exact inv_update h (fun x x' hx => (h.sessions k x hx).readError) hstep
  | writeSome k i n => exact inv_update h (fun x x' hx => (h.sessions k x hx).writeSome) hstep
  | wrote k i => exact inv_update h (fun x x' hx => (h.sessions k x hx).wrote) hstep
  | writeError k i => exact inv_update h (fun x x' hx => (h.sessions k x hx).writeError) hstep

theorem inv_of_run {events : List Event} (hrun : exec step (start initial) events = some s) :
    Inv initial s :=
  exec_invariant (fun _ _ _ h hstep => inv_step h hstep) (inv_start initial) hrun

/-- Whatever the peers send, in whatever pieces it comes, and whenever they go away. -/
theorem sequential_of_run (initial : TKVStorage) (events : List Event) (s : State)
    (hrun : exec step (start initial) events = some s) : Sequential initial s := by
  have h := inv_of_run hrun
  refine ⟨h.storage, ?_, fun k x hx => ?_, fun k x msgs hx hmsgs hreceived => ?_,
    fun k x hx => ?_, fun k x hx => ?_⟩
  · rw [h.storage, map_resolveAll_pairIn]
  · rw [(h.sessions k x hx).handled, (h.sessions k x hx).parsed.frames_eq]
  · rw [(h.sessions k x hx).handled, (h.sessions k x hx).parsed.frames_eq,
      requests_stream hmsgs hreceived]
  · rw [(h.sessions k x hx).queued, (h.sessions k x hx).replies]
  · exact (h.sessions k x hx).conserved

/-- A peer sets `k` to `v`, a part of its message with a header of another version following
at once; another one gets `k`. -/
theorem sequential_of_run_twoPeers :
    ∃ s, exec step (start .make) [.listen, .accept, .accept, .read 1 [0, 0, 0x11, 0, 9],
        .read 0 [0, 0, 0x12, 0, 11, 0, 0, 0], .read 0 [107, 32, 118],
        .read 0 [1, 0, 0, 0, 8, 0, 0, 0], .writeSome 0 0 8, .wrote 0 0, .read 1 [0, 0, 0],
        .read 1 [107], .writeSome 1 0 9] = some s ∧
      (s.sessions.map fun x => x.channel.stream) =
        [[0, 0, 0x22, 0, 8, 0, 0, 0], [0, 0, 0x21, 0, 9, 0, 0, 0, 118]] ∧
      Sequential .make s := by
  have hrun : ∃ s, exec step (start .make) [.listen, .accept, .accept,
      .read 1 [0, 0, 0x11, 0, 9], .read 0 [0, 0, 0x12, 0, 11, 0, 0, 0], .read 0 [107, 32, 118],
      .read 0 [1, 0, 0, 0, 8, 0, 0, 0], .writeSome 0 0 8, .wrote 0 0, .read 1 [0, 0, 0],
      .read 1 [107], .writeSome 1 0 9] = some s ∧
      (s.sessions.map fun x => x.channel.stream) =
        [[0, 0, 0x22, 0, 8, 0, 0, 0], [0, 0, 0x21, 0, 9, 0, 0, 0, 118]] := ⟨_, rfl, rfl⟩
  obtain ⟨s, hs, hstreams⟩ := hrun
  exact ⟨s, hs, hstreams, sequential_of_run .make _ s hs⟩

/-! ### The end of a session -/

/-- A session ends when its peer has gone away or has sent a message that was rejected, and
not before its responses have gone out or failed to. -/
structure Closed (x : Session) : Prop where
  ended : x.lost = true ∨ ∃ frames frame, Sessions.requests x.received = frames ++ [frame] ∧
    (THeader.ofBytes frame).verifyRequest = false
  answered : ∀ (i : ℕ) rest, x.channel.rests[i]? = some rest →
    rest = [] ∨ x.writes[i]? = some .failed
  whole : .failed ∉ x.writes → x.channel.stream.Perm x.channel.queued.flatten

theorem Session.Inv.closed (h : x.Inv initial served k) (hdead : ¬x.Alive) : Closed x := by
  obtain ⟨hreading, hpending⟩ := not_or.mp hdead
  have hanswered (i : ℕ) rest (hrest : x.channel.rests[i]? = some rest) :
      rest = [] ∨ x.writes[i]? = some .failed := by
    have hlt : i < x.writes.length := by
      rw [h.writes]
      exact (List.getElem?_eq_some_iff.mp hrest).1
    have hwrite := List.getElem?_eq_getElem hlt
    cases houtcome : x.writes[i] with
    | pending => exact absurd (houtcome ▸ List.getElem_mem hlt) hpending
    | written =>
        rw [houtcome] at hwrite
        exact Or.inl (Option.some.inj (hrest.symm.trans (h.written i hwrite)))
    | failed =>
        rw [houtcome] at hwrite
        exact Or.inr hwrite
  refine ⟨?_, hanswered, fun hfailed => ?_⟩
  · cases hlost : x.lost with
    | true => exact Or.inl rfl
    | false =>
        have hfalse : x.connection.reading = false :=
          Bool.eq_false_iff.mpr fun htrue => hreading ⟨htrue, hlost⟩
        obtain ⟨frames, frame, heq, -, hrefused⟩ := h.parsed.refused hfalse
        exact Or.inr ⟨frames, frame, h.parsed.frames_eq.symm.trans heq, hrefused⟩
  · have hrests : x.channel.rests.flatten = [] := by
      refine List.flatten_eq_nil_iff.mpr fun rest hrest => ?_
      obtain ⟨i, hi⟩ := List.mem_iff_getElem?.mp hrest
      exact (hanswered i rest hi).resolve_right fun hwrite => hfailed (List.mem_of_getElem? hwrite)
    have hconserved := h.conserved
    rwa [Channel.Conserved, hrests, List.append_nil] at hconserved

theorem update_of_none {f : Session → Option Session} {j : ℕ}
    (hstep : s.update j f = some s') (hx : s.sessions[k]? = some x) (hf : f x = none) :
    s'.sessions[k]? = some x := by
  obtain ⟨y', hbind, rfl⟩ := Option.map_eq_some_iff.mp hstep
  obtain ⟨y, hy, hy'⟩ := Option.bind_eq_some_iff.mp hbind
  have hne : j ≠ k := by
    rintro rfl
    obtain rfl := Option.some.inj (hx.symm.trans hy)
    cases hf.symm.trans hy'
  exact (List.getElem?_set_ne hne).trans hx

/-- No handler of a closed session runs. -/
theorem closed_step {e : Event} (hdead : ¬x.Alive) (hx : s.sessions[k]? = some x)
    (hstep : step s e = some s') : s'.sessions[k]? = some x := by
  obtain ⟨hreading, hpending⟩ := not_or.mp hdead
  have hwrites {i : ℕ} : ¬x.writes[i]? = some .pending := fun h =>
    hpending (List.mem_of_getElem? h)
  cases e with
  | listen =>
      simp only [step] at hstep
      split at hstep
      · obtain rfl := Option.some.inj hstep
        exact hx
      · cases hstep
  | accept =>
      simp only [step] at hstep
      split at hstep
      · cases hstep
      · obtain rfl := Option.some.inj hstep
        have hlt := (List.getElem?_eq_some_iff.mp hx).1
        exact (List.getElem?_append_left hlt).trans hx
  | acceptError =>
      simp only [step] at hstep
      split at hstep
      · cases hstep
      · obtain rfl := Option.some.inj hstep
        exact hx
  | read j bytes =>
      obtain ⟨y, hy, hmap⟩ := Option.bind_eq_some_iff.mp hstep
      obtain ⟨⟨y', storage⟩, hread, rfl⟩ := Option.map_eq_some_iff.mp hmap
      have hne : j ≠ k := by
        rintro rfl
        obtain rfl := Option.some.inj (hx.symm.trans hy)
        rw [Session.read] at hread
        split at hread
        · cases hread
        · next hlost =>
            obtain ⟨r, hr, -⟩ := Option.map_eq_some_iff.mp hread
            obtain ⟨c, hc, -⟩ := Option.map_eq_some_iff.mp hr
            exact hreading ⟨(Connection.onRead_cases hc).1, Bool.not_eq_true _ ▸ hlost⟩
      exact (List.getElem?_set_ne hne).trans hx
  | readError j => exact update_of_none hstep hx (if_neg hreading)
  | writeSome j i n => exact update_of_none hstep hx (if_neg hwrites)
  | wrote j i => exact update_of_none hstep hx (if_neg fun h => hwrites h.1)
  | writeError j i => exact update_of_none hstep hx (if_neg hwrites)

/-- What is closed stays closed, and no peer loses a response but for an error. -/
theorem closed_of_run (initial : TKVStorage) (events : List Event) (s : State)
    (hrun : exec step (start initial) events = some s) (k : ℕ) (x : Session)
    (hx : s.sessions[k]? = some x) (hdead : ¬x.Alive) :
    Closed x ∧ ∀ more s', exec step s more = some s' → s'.sessions[k]? = some x :=
  ⟨((inv_of_run hrun).sessions k x hx).closed hdead, fun _ _ hmore =>
    exec_invariant (I := fun s => s.sessions[k]? = some x)
      (fun _ _ _ hx hstep => closed_step hdead hx hstep) hx hmore⟩

/-- A peer sends a set and a message of another version, and gets its response before the
connection is closed. -/
theorem closed_of_run_refused :
    ∃ s x, exec step (start .make) [.listen, .accept, .read 0 [0, 0, 0x12, 0, 11, 0, 0, 0],
        .read 0 [107, 32, 118], .read 0 [1, 0, 0, 0, 8, 0, 0, 0], .writeSome 0 0 3,
        .writeSome 0 0 5, .wrote 0 0] = some s ∧ s.sessions[0]? = some x ∧ Closed x ∧
      x.channel.stream = [0, 0, 0x22, 0, 8, 0, 0, 0] := by
  have hrun : ∃ s x, exec step (start .make) [.listen, .accept,
      .read 0 [0, 0, 0x12, 0, 11, 0, 0, 0], .read 0 [107, 32, 118],
      .read 0 [1, 0, 0, 0, 8, 0, 0, 0], .writeSome 0 0 3, .writeSome 0 0 5, .wrote 0 0] =
      some s ∧ s.sessions[0]? = some x ∧ ¬x.Alive ∧
      x.channel.stream = [0, 0, 0x22, 0, 8, 0, 0, 0] := ⟨_, _, rfl, rfl, by decide, rfl⟩
  obtain ⟨s, x, hs, hx, hdead, hstream⟩ := hrun
  exact ⟨s, x, hs, hx, (closed_of_run .make _ s hs 0 x hx hdead).1, hstream⟩

end GJServer.Server.Sessions
