import GJServer.Library.Framing
import GJServer.Library.LittleEndian

/-!
The wire protocol (`net/proto.h`, `net/proto.cpp`).

A message is a packed header, in the byte order of the machines the program
runs on (little-endian), followed by its content; `sizeof(THeader)` is `8`
throughout. Memory behind a pointer is the list of the bytes from that pointer
on.
-/

namespace GJServer.Net

open Library

/-- A `std::string`: bytes without any restriction. -/
abbrev Str := List UInt8

/-- The unscoped enumeration over `uint16_t`: every 16-bit value can arrive in
a header, the named ones are below. -/
abbrev ECMD := UInt16

namespace ECMD

def None : ECMD := 0
def READ_REQUEST : ECMD := 0x11
def WRITE_REQUEST : ECMD := 0x12
def READ_RESPONSE : ECMD := 0x21
def WRITE_RESPONSE : ECMD := 0x22

end ECMD

structure THeader where
  version : UInt16
  cmd : ECMD
  size : UInt32
  deriving DecidableEq, Repr

namespace THeader

def toBytes (h : THeader) : Str :=
  LittleEndian.encode 2 h.version.toNat ++ LittleEndian.encode 2 h.cmd.toNat ++
    LittleEndian.encode 4 h.size.toNat

def ofBytes (mem : Str) : THeader where
  version := .ofNat (LittleEndian.decode (mem.take 2))
  cmd := .ofNat (LittleEndian.decode ((mem.drop 2).take 2))
  size := .ofNat (LittleEndian.decode ((mem.drop 4).take 4))

def verifyVersion (h : THeader) : Bool := h.version == 0

/-- The mask is joined with `&&`, so it only asks that both sides are not
zero. -/
def verifyRequest (h : THeader) : Bool :=
  h.verifyVersion && ((0x10 : UInt16) != 0 && h.cmd != 0)

def verifyResponse (h : THeader) : Bool :=
  h.verifyVersion && ((0x20 : UInt16) != 0 && h.cmd != 0)

/-- The length `ContentView` passes to `std::string_view`: the subtraction is
done in `size_t`. -/
def contentSize (h : THeader) : UInt64 := h.size.toUInt64 - 8

/-- `ContentView` of the header at the start of `mem`. -/
def contentView (mem : Str) : Str :=
  (mem.drop 8).take (ofBytes mem).contentSize.toNat

/-- `Prepare`: the bytes it leaves from its own address on. -/
def prepare (cmd : ECMD) (content : Str) (contentSize : UInt32) : Str :=
  let header : THeader := { version := 0, cmd := cmd, size := contentSize + 8 }
  header.toBytes ++ if contentSize = 0 then [] else content.take contentSize.toNat

/-- `MakeCommand`. The allocation of `contentSize + 8` bytes either succeeds or
throws, so the null check of the source is never taken. -/
def makeCommand (cmd : ECMD) (content : Str) (contentSize : UInt32) : Str :=
  prepare cmd content contentSize

/-- Neither mask is compared with a bit of the code, so both checks are the same. -/
theorem verifyResponse_eq_verifyRequest (h : THeader) : h.verifyResponse = h.verifyRequest := rfl

theorem verifyRequest_eq_false_iff (header : THeader) :
    header.verifyRequest = false ↔ (header.version = 0 → header.cmd = ECMD.None) := by
  have hmask : ((0x10 : UInt16) != 0) = true := rfl
  rw [THeader.verifyRequest, THeader.verifyVersion, hmask, Bool.true_and, Bool.and_eq_false_iff,
    beq_eq_false_iff_ne, bne_eq_false_iff_eq]
  exact imp_iff_not_or.symm

@[simp] theorem toBytes_length (h : THeader) : h.toBytes.length = 8 := by
  simp [toBytes]

theorem ofBytes_append {mem : Str} (rest : Str) (h : 8 ≤ mem.length) :
    ofBytes (mem ++ rest) = ofBytes mem := by
  have hdrop2 : (mem ++ rest).drop 2 = mem.drop 2 ++ rest :=
    List.drop_append_of_le_length (by omega)
  have hdrop4 : (mem ++ rest).drop 4 = mem.drop 4 ++ rest :=
    List.drop_append_of_le_length (by omega)
  rw [ofBytes, ofBytes, hdrop2, hdrop4,
    List.take_append_of_le_length (by omega),
    List.take_append_of_le_length (by rw [List.length_drop]; omega),
    List.take_append_of_le_length (by rw [List.length_drop]; omega)]

@[simp] theorem ofBytes_toBytes (h : THeader) : ofBytes h.toBytes = h := by
  obtain ⟨version, cmd, size⟩ := h
  have hversion : LittleEndian.decode (LittleEndian.encode 2 version.toNat) = version.toNat :=
    LittleEndian.decode_encode version.toNat_lt
  have hcmd : LittleEndian.decode (LittleEndian.encode 2 cmd.toNat) = cmd.toNat :=
    LittleEndian.decode_encode cmd.toNat_lt
  have hsize : LittleEndian.decode (LittleEndian.encode 4 size.toNat) = size.toNat :=
    LittleEndian.decode_encode size.toNat_lt
  simp [ofBytes, toBytes, List.drop_append, List.take_of_length_le,
    List.drop_eq_nil_of_le, hversion, hcmd, hsize]

theorem ofBytes_toBytes_append (h : THeader) (rest : Str) :
    ofBytes (h.toBytes ++ rest) = h := by
  rw [ofBytes_append rest (by simp), ofBytes_toBytes]

/-- The header of a command, whatever length the caller passes. -/
theorem ofBytes_makeCommand (cmd : ECMD) (content : Str) (contentSize : UInt32) :
    ofBytes (makeCommand cmd content contentSize) = ⟨0, cmd, contentSize + 8⟩ :=
  ofBytes_toBytes_append ..

theorem ofBytes_take {mem : Str} {n : ℕ} (hn : 8 ≤ n)
    (hmem : 8 ≤ mem.length) : ofBytes (mem.take n) = ofBytes mem := by
  have hlen : 8 ≤ (mem.take n).length := by
    rw [List.length_take]
    omega
  have h := ofBytes_append (mem.drop n) hlen
  rw [List.take_append_drop] at h
  exact h.symm

theorem contentSize_toNat {h : THeader} (hsize : 8 ≤ h.size.toNat) :
    h.contentSize.toNat = h.size.toNat - 8 := by
  have hlt := h.size.toNat_lt
  rw [contentSize, UInt64.toNat_sub, UInt32.toNat_toUInt64]
  show (2 ^ 64 - 8 + h.size.toNat) % 2 ^ 64 = h.size.toNat - 8
  omega

end THeader

/-- The framing of the protocol: eight bytes of header, the total length in the
size field. -/
def frameFormat : Framing.Format UInt8 where
  headerLen := 8
  size mem := (THeader.ofBytes mem).size.toNat
  headerLen_pos := by decide
  size_append h rest hlen := by rw [THeader.ofBytes_append rest hlen]

/-- `ContentView` of a frame does not see what lies behind it in memory. -/
theorem THeader.contentView_append {frame : Str} (rest : Str)
    (h : frameFormat.IsFrame frame) :
    THeader.contentView (frame ++ rest) = THeader.contentView frame := by
  have hlen : 8 ≤ frame.length := h.1
  have hsize : (THeader.ofBytes frame).size.toNat = frame.length := h.2
  rw [THeader.contentView, THeader.contentView, THeader.ofBytes_append rest hlen,
    THeader.contentSize_toNat (by omega), List.drop_append_of_le_length hlen,
    List.take_append_of_le_length]
  rw [List.length_drop]
  omega

theorem THeader.contentView_of_isFrame {frame : Str} (h : frameFormat.IsFrame frame) :
    THeader.contentView frame = frame.drop 8 := by
  have hsize : (THeader.ofBytes frame).size.toNat = frame.length := h.2
  have hlen : 8 ≤ frame.length := h.1
  rw [THeader.contentView, THeader.contentSize_toNat (by omega), hsize, ← List.length_drop,
    List.take_length]

structure Message where
  cmd : ECMD
  content : Str
  deriving DecidableEq, Repr

namespace Message

/-- The frame the callers of `MakeCommand` build: they pass the length of the
string, which the parameter type narrows to 32 bits. -/
def frame (m : Message) : Str :=
  THeader.makeCommand m.cmd m.content (.ofNat m.content.length)

def Fits (m : Message) : Prop := m.content.length + 8 < 2 ^ 32

instance (m : Message) : Decidable m.Fits := inferInstanceAs (Decidable (_ < _))

theorem Fits.toNat_ofNat {m : Message} (hm : m.Fits) :
    (UInt32.ofNat m.content.length).toNat = m.content.length := by
  rw [UInt32.toNat_ofNat']
  exact Nat.mod_eq_of_lt (by unfold Fits at hm; omega)

theorem frame_eq {m : Message} (hm : m.Fits) :
    m.frame = THeader.toBytes ⟨0, m.cmd, .ofNat (m.content.length + 8)⟩ ++ m.content := by
  have hsum : UInt32.ofNat m.content.length + 8 = .ofNat (m.content.length + 8) := by
    rw [UInt32.ofNat_add]
    rfl
  rw [frame, THeader.makeCommand, THeader.prepare, hm.toNat_ofNat, List.take_length]
  rw [hsum]
  congr 1
  split
  · next hzero =>
      have hlen := congrArg UInt32.toNat hzero
      rw [hm.toNat_ofNat] at hlen
      exact (List.length_eq_zero_iff.mp hlen).symm
  · rfl

@[simp] theorem frame_length {m : Message} (hm : m.Fits) :
    m.frame.length = m.content.length + 8 := by
  rw [frame_eq hm, List.length_append, THeader.toBytes_length]
  omega

theorem ofBytes_frame {m : Message} (hm : m.Fits) :
    THeader.ofBytes m.frame = ⟨0, m.cmd, .ofNat (m.content.length + 8)⟩ := by
  rw [frame_eq hm, THeader.ofBytes_toBytes_append]

theorem size_frame {m : Message} (hm : m.Fits) :
    (THeader.ofBytes m.frame).size.toNat = m.frame.length := by
  rw [ofBytes_frame hm, frame_length hm]
  show (UInt32.ofNat (m.content.length + 8)).toNat = _
  rw [UInt32.toNat_ofNat']
  exact Nat.mod_eq_of_lt hm

theorem isFrame {m : Message} (hm : m.Fits) : frameFormat.IsFrame m.frame :=
  ⟨by rw [frame_length hm]; exact Nat.le_add_left .., size_frame hm⟩

theorem contentView_frame {m : Message} (hm : m.Fits) :
    THeader.contentView m.frame = m.content := by
  have hsize := size_frame hm
  rw [THeader.contentView, THeader.contentSize_toNat (by rw [hsize, frame_length hm]; omega),
    hsize, frame_length hm, Nat.add_sub_cancel, frame_eq hm,
    List.drop_left' (THeader.toBytes_length _), List.take_length]

end Message

end GJServer.Net
