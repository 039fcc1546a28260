import GJServer.Library.Channel
import GJServer.Net.Delivery

/-!
One direction of a connection byte by byte (`net/session.h`): what one end has passed to
`Write`, how much of it the socket has taken, and how much the other end has read. An
`async_read_some` completes with at least one of the bytes that have arrived and with at
most as many as `Read` asked for, so that messages are cut anywhere.
-/

namespace GJServer.Net

open Library Framing

/-- The stream of the channel has arrived at the other end, which has read the first
`consumed` bytes of it. -/
structure Pipe where
  channel : Channel UInt8
  consumed : ℕ
  deriving DecidableEq

namespace Pipe

def empty : Pipe := ⟨.empty, 0⟩

/-- `Write` starts to send as many bytes as the size field of the message says. -/
def write (p : Pipe) (message : Str) : Pipe :=
  { p with channel := p.channel.write (message.take (THeader.ofBytes message).size.toNat) }

/-- The socket takes the next `n` bytes of the write with number `k`. -/
def writeSome (p : Pipe) (k n : ℕ) : Option Pipe :=
  (p.channel.writeSome k n).map fun channel => { p with channel := channel }

def arrived (p : Pipe) : Str := p.channel.stream.drop p.consumed

/-- A read of `session` completes with the next `n` bytes. -/
def read (p : Pipe) (session : TSession) (n : ℕ) : Option (Pipe × TSession) :=
  if 0 < n ∧ n ≤ session.readsize.toNat ∧ n ≤ p.arrived.length then
    (session.receive (p.arrived.take n)).map fun session =>
      ({ p with consumed := p.consumed + n }, session)
  else none

/-- What the other end has not read yet. -/
def underway (p : Pipe) : Str := p.arrived ++ p.channel.rests.flatten

/-- How often the bytes on their way can still be moved. -/
def work (p : Pipe) : ℕ := 2 * p.channel.rests.flatten.length + p.arrived.length

end Pipe

/-- A whole frame that has room in the buffer of a session. -/
def FitsBuffer (f : Str) : Prop :=
  frameFormat.IsFrame f ∧ f.length ≤ TSession.DEFAULT_MAX_MESSAGE_SIZE.toNat

theorem Message.Small.fitsBuffer {m : Message} (h : m.Small) : FitsBuffer m.frame := by
  refine ⟨Message.isFrame h.fits, ?_⟩
  rw [Message.frame_length h.fits]
  show m.content.length + 8 ≤ 4096
  have hsmall : m.content.length ≤ 4088 := h
  omega

namespace TSession

/-- The handler sees the received message, and old bytes behind it. -/
theorem buffer_eq (s : TSession) : s.buffer = s.pending ++ s.buffer.drop s.bufferSize.toNat :=
  (List.take_append_drop ..).symm

theorem Complete.header_eq {s : TSession} (h : s.Complete) :
    s.header = THeader.ofBytes s.pending :=
  TSession.header_eq ((le_bufferSize_iff s).mp h.1)

theorem Complete.contentView_eq {s : TSession} (h : s.Complete) :
    THeader.contentView s.buffer = THeader.contentView s.pending := by
  rw [buffer_eq, THeader.contentView_append _ ((complete_iff s).mp h)]

end TSession

/-- What the session has of its current message and what is underway are the given
frames, no two of which are being written at the same time, so that what has gone out
since the beginning is what was written, in order. -/
structure Flow (session : TSession) (p : Pipe) (frames : List Str) : Prop where
  max : session.maxMessageSize = TSession.DEFAULT_MAX_MESSAGE_SIZE
  bytes : session.pending ++ p.underway = frames.flatten
  fits : ∀ f ∈ frames, FitsBuffer f
  incomplete : frameFormat.Incomplete session.pending
  single : p.channel.Single
  whole : p.channel.Whole
  consumed : p.consumed ≤ p.channel.stream.length

namespace Flow

variable {session session' : TSession} {p p' : Pipe} {frames : List Str} {k n : ℕ}

theorem start : Flow (.make TSession.DEFAULT_MAX_MESSAGE_SIZE) .empty [] where
  max := rfl
  bytes := rfl
  fits := by simp
  incomplete := frameFormat.incomplete_nil
  single := Channel.single_empty
  whole := Channel.whole_empty
  consumed := Nat.le_refl 0

/-- When nothing is underway a message can be written. -/
theorem write (h : Flow session p []) {message : Str} (hmessage : FitsBuffer message) :
    Flow session (p.write message) [message] ∧ (p.write message).work = 2 * message.length := by
  have hsize : (THeader.ofBytes message).size.toNat = message.length := hmessage.1.2
  obtain ⟨hpending, hunderway⟩ := List.append_eq_nil_iff.mp h.bytes
  obtain ⟨harrived, hrests⟩ := List.append_eq_nil_iff.mp hunderway
  have harrived' : (p.write message).arrived = [] := harrived
  have hrests' : (p.write message).channel.rests.flatten = message := by
    rw [Pipe.write, Channel.write, hsize, List.take_length, List.flatten_append, hrests,
      List.flatten_singleton, List.nil_append]
  refine ⟨⟨h.max, ?_, List.forall_mem_singleton.mpr hmessage, h.incomplete,
    Channel.single_write hrests _, Channel.whole_write h.whole _, h.consumed⟩, ?_⟩
  · rw [Pipe.underway, harrived', hrests', hpending, List.flatten_singleton, List.nil_append,
      List.nil_append]
  · rw [Pipe.work, harrived', hrests', List.length_nil, Nat.add_zero]

theorem writeSome (h : Flow session p frames) (hsome : p.writeSome k n = some p') :
    Flow session p' frames ∧ p'.work < p.work := by
  obtain ⟨channel, hchannel, rfl⟩ := Option.map_eq_some_iff.mp hsome
  obtain ⟨hsingle, hfirst, out, hout, hstream, hrests⟩ := h.single.writeSome hchannel
  have harrived : (⟨channel, p.consumed⟩ : Pipe).arrived = p.arrived ++ out := by
    rw [Pipe.arrived, hstream, List.drop_append_of_le_length h.consumed]
    rfl
  refine ⟨⟨h.max, ?_, h.fits, h.incomplete, hsingle,
    Channel.whole_writeSome h.whole hfirst hchannel, ?_⟩, ?_⟩
  · rw [← h.bytes, Pipe.underway, Pipe.underway, harrived, hrests, List.append_assoc]
  · dsimp only
    rw [hstream, List.length_append]
    exact h.consumed.trans (Nat.le_add_right ..)
  · have hpos := List.length_pos_iff.mpr hout
    rw [Pipe.work, Pipe.work, harrived, hrests, List.length_append, List.length_append]
    dsimp only
    omega

/-- A pending header is that of the first frame. -/
theorem size_pending (h : Flow session p frames) (hlen : 8 ≤ session.bufferSize.toNat) :
    ∃ f rest, frames = f :: rest ∧ session.header.size.toNat = f.length := by
  have hbytes := h.bytes
  rw [TSession.header_eq hlen]
  rw [← TSession.pending_length] at hlen
  cases frames with
  | nil =>
      rw [(List.append_eq_nil_iff.mp hbytes).1] at hlen
      cases hlen
  | cons f rest =>
      have hframe := (h.fits f List.mem_cons_self).1
      refine ⟨f, rest, rfl, ?_⟩
      rw [← hframe.2]
      exact frameFormat.size_eq_of_append_eq hlen hframe.1 hbytes

/-- `Read` asserts what it should, and what it asks for has room in the buffer. -/
theorem safe (h : Flow session p frames) : session.ReadAssert ∧
    session.bufferSize.toNat + session.readsize.toNat ≤ session.maxMessageSize.toNat := by
  have hassert := (TSession.readAssert_iff session).mpr h.incomplete
  refine ⟨hassert, ?_⟩
  rw [TSession.bufferSize_add_readsize hassert, h.max]
  split
  · decide
  · next hge =>
      have hge' := (TSession.le_bufferSize_iff session).mp (UInt32.not_lt.mp hge)
      obtain ⟨f, rest, rfl, hsize⟩ := h.size_pending hge'
      exact hsize.trans_le (h.fits f List.mem_cons_self).2

/-- A read does not reach past the first frame. -/
theorem pending_append_le (h : Flow session p frames) {bytes : Str}
    (hlen : bytes.length ≤ session.readsize.toNat) {f : Str} {rest : List Str}
    (hframes : frames = f :: rest) : (session.pending ++ bytes).length ≤ f.length := by
  have hsum := TSession.bufferSize_add_readsize h.safe.1
  rw [List.length_append, TSession.pending_length]
  split at hsum
  · have hheader : 8 ≤ f.length := (h.fits f (hframes ▸ List.mem_cons_self)).1.1
    omega
  · next hge =>
      have hge' := (TSession.le_bufferSize_iff session).mp (UInt32.not_lt.mp hge)
      obtain ⟨g, tail, hcons, hsize⟩ := h.size_pending hge'
      obtain ⟨rfl, -⟩ := List.cons.inj (hframes.symm.trans hcons)
      omega

/-- A read moves bytes on, and either the message is still unfinished or it is the first
frame. -/
theorem read (h : Flow session p frames) (hread : p.read session n = some (p', session')) :
    p'.work < p.work ∧
      ((¬session'.Complete ∧ Flow session' p' frames) ∨
        (session'.Complete ∧ ∃ rest, frames = session'.pending :: rest ∧
          Flow session'.clear p' rest)) := by
  rw [Pipe.read, Option.ite_none_right_eq_some] at hread
  obtain ⟨⟨hpos, hle, harrived⟩, hread⟩ := hread
  obtain ⟨session'', hreceive, heq⟩ := Option.map_eq_some_iff.mp hread
  obtain ⟨rfl, rfl⟩ := Prod.mk.inj heq
  obtain ⟨hmax, -, hpending⟩ := TSession.receive_eq_some hreceive
  have htaken : (p.arrived.take n).length = n := by
    rw [List.length_take]
    omega
  have harrived' : (⟨p.channel, p.consumed + n⟩ : Pipe).arrived = p.arrived.drop n := by
    rw [Pipe.arrived, Pipe.arrived, List.drop_drop]
  have hunderway : p.underway = p.arrived.take n ++
      (⟨p.channel, p.consumed + n⟩ : Pipe).underway := by
    rw [Pipe.underway, Pipe.underway, harrived', ← List.append_assoc, List.take_append_drop]
  have hconsumed : p.consumed + n ≤ p.channel.stream.length := by
    rw [Pipe.arrived, List.length_drop] at harrived
    omega
  have hbytes : session''.pending ++ (⟨p.channel, p.consumed + n⟩ : Pipe).underway =
      frames.flatten := by
    rw [hpending, List.append_assoc, ← hunderway]
    exact h.bytes
  refine ⟨?_, ?_⟩
  · rw [Pipe.work, Pipe.work, harrived', List.length_drop]
    dsimp only
    omega
  cases frames with
  | nil =>
      rw [List.flatten_nil, List.append_eq_nil_iff, hpending, List.append_eq_nil_iff] at hbytes
      rw [hbytes.1.2] at htaken
      exact absurd htaken.symm (Nat.pos_iff_ne_zero.mp hpos)
  | cons f rest =>
      have hframe := h.fits f List.mem_cons_self
      have hlen : session''.pending.length ≤ f.length := by
        rw [hpending]
        exact h.pending_append_le (by omega) rfl
      by_cases hcomplete : session''.Complete
      · refine Or.inr ⟨hcomplete, rest, ?_⟩
        obtain ⟨rfl, hrest⟩ := ((TSession.complete_iff _).mp hcomplete).append_inj hframe.1
          (hbytes.trans List.flatten_cons)
        exact ⟨rfl, hmax.trans h.max, hrest,
          fun g hg => h.fits g (List.mem_cons_of_mem _ hg), frameFormat.incomplete_nil,
          h.single, h.whole, hconsumed⟩
      · refine Or.inl ⟨hcomplete, hmax.trans h.max, hbytes, h.fits, fun hheader => ?_,
          h.single, h.whole, hconsumed⟩
        -- an announced length that has been reached would make it a whole frame
        have hsize : frameFormat.size session''.pending = f.length :=
          (frameFormat.size_eq_of_append_eq hheader hframe.1.1
            (hbytes.trans List.flatten_cons)).trans hframe.1.2
        have hne : session''.pending.length ≠ f.length := fun heq =>
          hcomplete ((TSession.complete_iff _).mpr ⟨hheader, hsize.trans heq.symm⟩)
        omega

/-- Until all frames have been read, a byte can be written or read. -/
theorem exists_step (h : Flow session p frames) (hne : frames ≠ []) :
    (∃ k n p', p.writeSome k n = some p') ∨
      ∃ p' session', p.read session 1 = some (p', session') := by
  by_cases harrived : p.arrived = []
  · refine Or.inl ?_
    have hrests : p.channel.rests.flatten ≠ [] := by
      intro hnil
      obtain ⟨f, rest, rfl⟩ := List.exists_cons_of_ne_nil hne
      have hbytes := h.bytes
      rw [Pipe.underway, harrived, hnil, List.append_nil, List.append_nil,
        List.flatten_cons] at hbytes
      exact (h.fits f List.mem_cons_self).1.not_incomplete_append (hbytes ▸ h.incomplete)
    obtain ⟨k, n, channel, hsome⟩ := Channel.exists_writeSome hrests
    exact ⟨k, n, _, Option.map_eq_some_iff.mpr ⟨channel, hsome, rfl⟩⟩
  · refine Or.inr ?_
    obtain ⟨hassert, hroom⟩ := h.safe
    have hpos := TSession.readsize_pos hassert
    have hlen := List.length_pos_iff.mpr harrived
    have htaken : (p.arrived.take 1).length = 1 := by
      rw [List.length_take]
      omega
    have hroom' : session.bufferSize.toNat + (p.arrived.take 1).length ≤
        session.maxMessageSize.toNat := by
      omega
    obtain ⟨session', hsession⟩ := TSession.receive_isSome hroom'
    refine ⟨{ p with consumed := p.consumed + 1 }, session', ?_⟩
    rw [Pipe.read, if_pos ⟨Nat.one_pos, hpos, hlen⟩, hsession]
    rfl

end Flow

end GJServer.Net
