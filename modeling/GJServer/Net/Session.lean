import GJServer.Library.Exec
import GJServer.Net.Proto

/-!
One end of a connection (`net/session.h`).

The session keeps the bytes of the message it is receiving at the start of a
fixed buffer and asks the socket for the bytes that are missing: first those of
the header, then those the header announces. The socket answers with a
completion that carries at least one byte and at most as many as were asked
for; the completion handler is one step of `Connection.onRead`.
-/

namespace GJServer.Net

open Library

structure TSession where
  maxMessageSize : UInt32
  buffer : Str
  bufferSize : UInt32
  buffer_length : buffer.length = maxMessageSize.toNat
  bufferSize_le : bufferSize.toNat ≤ maxMessageSize.toNat
  deriving DecidableEq

namespace TSession

def DEFAULT_MAX_MESSAGE_SIZE : UInt32 := 4096

def make (maxMessageSize : UInt32) : TSession where
  maxMessageSize := maxMessageSize
  buffer := List.replicate maxMessageSize.toNat 0
  bufferSize := 0
  buffer_length := List.length_replicate
  bufferSize_le := Nat.zero_le _

def header (s : TSession) : THeader := THeader.ofBytes s.buffer

/-- The assertion `Read` makes before it uses the size field. -/
def ReadAssert (s : TSession) : Prop := 8 ≤ s.bufferSize → s.bufferSize < s.header.size

instance (s : TSession) : Decidable s.ReadAssert :=
  inferInstanceAs (Decidable (_ → _))

/-- The number of bytes `Read` asks `async_read_some` for. -/
def readsize (s : TSession) : UInt32 :=
  if s.bufferSize < 8 then 8 - s.bufferSize else s.header.size - s.bufferSize

/-- The socket stores `bytes` where `Read` pointed it, and the completion
handler adds their number to `m_bufferSize`. Bytes that would end up behind the
buffer have no meaning in the program. -/
def receive (s : TSession) (bytes : Str) : Option TSession :=
  if h : s.bufferSize.toNat + bytes.length ≤ s.maxMessageSize.toNat then
    some
      { maxMessageSize := s.maxMessageSize
        buffer := s.buffer.take s.bufferSize.toNat ++ bytes ++
          s.buffer.drop (s.bufferSize.toNat + bytes.length)
        bufferSize := s.bufferSize + .ofNat bytes.length
        buffer_length := by
          have hbuffer := s.buffer_length
          simp only [List.length_append, List.length_take, List.length_drop]
          omega
        bufferSize_le := by
          have hmax := s.maxMessageSize.toNat_lt
          rw [UInt32.toNat_add, UInt32.toNat_ofNat']
          omega }
  else none

def Complete (s : TSession) : Prop := 8 ≤ s.bufferSize ∧ s.bufferSize = s.header.size

instance (s : TSession) : Decidable s.Complete := inferInstanceAs (Decidable (_ ∧ _))

/-- `m_bufferSize = 0` after a handled message; the bytes stay in the buffer. -/
def clear (s : TSession) : TSession :=
  { s with bufferSize := 0, bufferSize_le := Nat.zero_le _ }

/-- `Reconnect`, when `asio::connect` succeeds: the socket is closed and
connected again, the fields of the session are not touched. -/
def reconnect (s : TSession) : TSession := s

def pending (s : TSession) : Str := s.buffer.take s.bufferSize.toNat

@[simp] theorem pending_length (s : TSession) : s.pending.length = s.bufferSize.toNat := by
  have hbuffer := s.buffer_length
  have hsize := s.bufferSize_le
  rw [pending, List.length_take]
  omega

@[simp] theorem pending_make (max : UInt32) : (make max).pending = [] := rfl

@[simp] theorem bufferSize_clear (s : TSession) : s.clear.bufferSize = 0 := rfl

theorem le_bufferSize_iff (s : TSession) : 8 ≤ s.bufferSize ↔ 8 ≤ s.bufferSize.toNat :=
  UInt32.le_iff_toNat_le

/-- Once a whole header is there, the size field is that of the pending
message. -/
theorem header_eq {s : TSession} (h : 8 ≤ s.bufferSize.toNat) :
    s.header = THeader.ofBytes s.pending := by
  have hbuffer := s.buffer_length
  have hsize := s.bufferSize_le
  exact (THeader.ofBytes_take h (by omega)).symm

theorem readAssert_iff (s : TSession) : s.ReadAssert ↔ frameFormat.Incomplete s.pending := by
  rw [ReadAssert, le_bufferSize_iff, Framing.Format.Incomplete, pending_length]
  refine forall_congr' fun h => ?_
  rw [UInt32.lt_iff_toNat_lt, header_eq h]
  rfl

theorem complete_iff (s : TSession) : s.Complete ↔ frameFormat.IsFrame s.pending := by
  rw [Complete, le_bufferSize_iff, Framing.Format.IsFrame, pending_length]
  refine and_congr_right fun h => ?_
  rw [← UInt32.toNat_inj, header_eq h]
  exact eq_comm

/-- What the socket is asked for never wraps around when the assertion holds:
it is what the header or the message still lacks. -/
theorem bufferSize_add_readsize {s : TSession} (h : s.ReadAssert) :
    s.bufferSize.toNat + s.readsize.toNat =
      if s.bufferSize < 8 then 8 else s.header.size.toNat := by
  unfold readsize
  split
  · next hlt =>
      have hlt' : s.bufferSize.toNat < 8 := UInt32.lt_iff_toNat_lt.mp hlt
      rw [UInt32.toNat_sub_of_le _ _ (UInt32.le_of_lt hlt)]
      show _ + (8 - _) = 8
      omega
  · next hge =>
      have hsize := h (UInt32.not_lt.mp hge)
      have hsize' := UInt32.lt_iff_toNat_lt.mp hsize
      rw [UInt32.toNat_sub_of_le _ _ (UInt32.le_of_lt hsize)]
      omega

theorem readsize_pos {s : TSession} (h : s.ReadAssert) : 0 < s.readsize.toNat := by
  have hsum := bufferSize_add_readsize h
  split at hsum
  · next hlt =>
      have hlt' : s.bufferSize.toNat < 8 := UInt32.lt_iff_toNat_lt.mp hlt
      omega
  · next hge =>
      have hsize := UInt32.lt_iff_toNat_lt.mp (h (UInt32.not_lt.mp hge))
      omega

theorem receive_eq_some {s s' : TSession} {bytes : Str} (h : s.receive bytes = some s') :
    s'.maxMessageSize = s.maxMessageSize ∧
      s'.bufferSize.toNat = s.bufferSize.toNat + bytes.length ∧
      s'.pending = s.pending ++ bytes := by
  unfold receive at h
  split at h
  · next hfit =>
      have hmax := s.maxMessageSize.toNat_lt
      have hbuffer := s.buffer_length
      have hsize : (s.bufferSize + UInt32.ofNat bytes.length).toNat =
          s.bufferSize.toNat + bytes.length := by
        rw [UInt32.toNat_add, UInt32.toNat_ofNat']
        omega
      obtain rfl := Option.some.inj h
      refine ⟨rfl, hsize, ?_⟩
      unfold pending
      dsimp only
      rw [hsize]
      exact List.take_left' (by
        rw [List.length_append, List.length_take]
        omega)
  · cases h

theorem receive_isSome {s : TSession} {bytes : Str}
    (h : s.bufferSize.toNat + bytes.length ≤ s.maxMessageSize.toNat) :
    ∃ s', s.receive bytes = some s' := by
  rw [receive, dif_pos h]
  exact ⟨_, rfl⟩

end TSession

/-! ### A connection -/

/-- One call of `ResolveHandler`: the memory behind the header pointer, and the
number of bytes received for the message. -/
structure Dispatch where
  memory : Str
  received : UInt32
  deriving DecidableEq

namespace Dispatch

def header (d : Dispatch) : THeader := THeader.ofBytes d.memory

def message (d : Dispatch) : Message := ⟨d.header.cmd, THeader.contentView d.memory⟩

def frame (d : Dispatch) : Str := d.memory.take d.received.toNat

def ContentInside (d : Dispatch) : Prop :=
  8 + d.header.contentSize.toNat ≤ d.received.toNat

end Dispatch

/-- A session on one connection: whether an `async_read_some` is outstanding,
and the calls of `ResolveHandler` so far. -/
structure Connection where
  session : TSession
  reading : Bool
  dispatched : List Dispatch
  deriving DecidableEq

namespace Connection

/-- The state after the `Read` that follows a successful connect. -/
def start (s : TSession) : Connection where
  session := s
  reading := true
  dispatched := []

def frames (c : Connection) : List Str := c.dispatched.map Dispatch.frame

/-- The completion handler of a read that carries `bytes`. The answer of the
handler may depend on everything it was given on this connection. When it is
`false` the session calls `ProcessDisconnect` and does not read again. -/
def onRead (handler : List Str → Bool) (c : Connection) (bytes : Str) : Option Connection :=
  if c.reading ∧ bytes ≠ [] ∧ bytes.length ≤ c.session.readsize.toNat then
    (c.session.receive bytes).map fun s =>
      if s.Complete then
        let calls := c.dispatched ++ [⟨s.buffer, s.bufferSize⟩]
        if handler (calls.map Dispatch.frame) then
          { session := s.clear, reading := true, dispatched := calls }
        else
          { session := s, reading := false, dispatched := calls }
      else
        { session := s, reading := true, dispatched := c.dispatched }
  else none

/-- Everything a read completion can do: it extends the pending message, or it
completes it and the handler accepts it, or the handler rejects it. -/
theorem onRead_cases {handler : List Str → Bool} {c c' : Connection} {bytes : Str}
    (h : c.onRead handler bytes = some c') :
    c.reading = true ∧ bytes ≠ [] ∧ bytes.length ≤ c.session.readsize.toNat ∧
      ∃ s, c.session.receive bytes = some s ∧
        ((¬s.Complete ∧ c' = ⟨s, true, c.dispatched⟩) ∨
          (s.Complete ∧ ∃ d : Dispatch, d = ⟨s.buffer, s.bufferSize⟩ ∧
            ((handler (c.frames ++ [d.frame]) = true ∧
                c' = ⟨s.clear, true, c.dispatched ++ [d]⟩) ∨
              (handler (c.frames ++ [d.frame]) = false ∧
                c' = ⟨s, false, c.dispatched ++ [d]⟩)))) := by
  unfold onRead at h
  split at h
  · next hlegal =>
      obtain ⟨s, hs, rfl⟩ := Option.map_eq_some_iff.mp h
      refine ⟨hlegal.1, hlegal.2.1, hlegal.2.2, s, hs, ?_⟩
      have hcalls : List.map Dispatch.frame (c.dispatched ++ [⟨s.buffer, s.bufferSize⟩]) =
          c.frames ++ [Dispatch.frame ⟨s.buffer, s.bufferSize⟩] := List.map_append
      by_cases hcomplete : s.Complete
      · refine Or.inr ⟨hcomplete, ⟨s.buffer, s.bufferSize⟩, rfl, ?_⟩
        rw [if_pos hcomplete]
        dsimp only
        rw [hcalls]
        cases hanswer : handler (c.frames ++ [Dispatch.frame ⟨s.buffer, s.bufferSize⟩]) with
        | true => exact Or.inl ⟨rfl, rfl⟩
        | false => exact Or.inr ⟨rfl, rfl⟩
      · exact Or.inl ⟨hcomplete, if_neg hcomplete⟩
  · cases h

/-- A completion with `bytes` is possible whenever the session reads, asks for
that much, and has room for it. -/
theorem onRead_isSome {handler : List Str → Bool} {c : Connection} {bytes : Str}
    (hreading : c.reading = true) (hne : bytes ≠ [])
    (hlen : bytes.length ≤ c.session.readsize.toNat)
    (hroom : c.session.bufferSize.toNat + bytes.length ≤ c.session.maxMessageSize.toNat) :
    ∃ c', c.onRead handler bytes = some c' := by
  obtain ⟨s, hs⟩ := TSession.receive_isSome hroom
  have hlegal : c.reading ∧ bytes ≠ [] ∧ bytes.length ≤ c.session.readsize.toNat :=
    ⟨hreading, hne, hlen⟩
  rw [onRead, if_pos hlegal, hs]
  exact ⟨_, rfl⟩

end Connection

end GJServer.Net
