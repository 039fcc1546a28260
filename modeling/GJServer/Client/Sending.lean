import GJServer.Client.CommandFile
import GJServer.Net.Session

/-!
The length of what a client sends. A string has a length in `size_t`, the header of a
message has 32 bits for it, and the buffer of the session that receives it
`DEFAULT_MAX_MESSAGE_SIZE` bytes. `ProcessCommand` sends whatever the command file holds.
-/

namespace GJServer.Client

open Library Delimited Net KVStorage

/-- What is to be sent for a get or a set: the key, or key and value around a delimiter. -/
def content (command : TCommandPair) : Str :=
  if command.cmd = ECMD.READ_REQUEST then command.args
  else
    let pair := splitKeyValue command.args
    pair.1 ++ [KV_DELIMITER] ++ pair.2

/-- The message announces its header and all of its content, and has room in the buffer
of a session. -/
structure Receivable (command : TCommandPair) (message : Str) : Prop where
  size : (THeader.ofBytes message).size.toNat = 8 + (content command).length
  room : (THeader.ofBytes message).size ≤ TSession.DEFAULT_MAX_MESSAGE_SIZE

/-- The arguments leave room for the header, and for the delimiter of a set that comes
without one. -/
structure Short (command : TCommandPair) : Prop where
  get : command.cmd = ECMD.READ_REQUEST → command.args.length ≤ 4088
  set : command.cmd = ECMD.WRITE_REQUEST →
    command.args.length + (if KV_DELIMITER ∈ command.args then 0 else 1) ≤ 4088

theorem request_eq {command : TCommandPair} (h : command.IsCommand) :
    request command = some (THeader.makeCommand command.cmd (content command)
      (.ofNat (content command).length)) := by
  obtain ⟨cmd, args⟩ := command
  obtain rfl | rfl := h <;> rfl

theorem request_eq_none {command : TCommandPair} (h : ¬command.IsCommand) :
    request command = none := by
  rw [TCommandPair.IsCommand, not_or] at h
  rw [request, if_neg h.1, if_neg h.2]

theorem write_ne_read : ECMD.WRITE_REQUEST ≠ ECMD.READ_REQUEST := by decide

theorem length_content_set (args : Str) :
    (content ⟨ECMD.WRITE_REQUEST, args⟩).length =
      args.length + if KV_DELIMITER ∈ args then 0 else 1 := by
  have hcontent : content ⟨ECMD.WRITE_REQUEST, args⟩ =
      before KV_DELIMITER args ++ KV_DELIMITER :: after KV_DELIMITER args := by
    rw [content, if_neg write_ne_read, splitKeyValue_eq, List.append_assoc,
      List.singleton_append]
  rw [hcontent]
  split
  · next hmem => rw [before_append_after hmem, Nat.add_zero]
  · next hmem => simp [before_of_not_mem hmem, after_of_not_mem hmem]

theorem short_iff {command : TCommandPair} (h : command.IsCommand) :
    Short command ↔ (content command).length ≤ 4088 := by
  obtain ⟨cmd, args⟩ := command
  obtain rfl | rfl := h
  · exact ⟨fun h => h.get rfl, fun h => ⟨fun _ => h, fun hset => absurd hset.symm write_ne_read⟩⟩
  · rw [length_content_set]
    exact ⟨fun h => h.set rfl, fun h => ⟨fun hget => absurd hget write_ne_read, fun _ => h⟩⟩

/-- The length is narrowed to 32 bits and the header is added in 32 bits. -/
theorem receivable_iff {command : TCommandPair} :
    Receivable command
        (THeader.makeCommand command.cmd (content command) (.ofNat (content command).length)) ↔
      (content command).length ≤ 4088 := by
  have hheader := THeader.ofBytes_makeCommand command.cmd (content command)
    (.ofNat (content command).length)
  have hsize : (UInt32.ofNat (content command).length + 8).toNat =
      ((content command).length % 2 ^ 32 + 8) % 2 ^ 32 := by
    rw [UInt32.toNat_add, UInt32.toNat_ofNat']
    rfl
  have hmax : TSession.DEFAULT_MAX_MESSAGE_SIZE.toNat = 4096 := rfl
  constructor
  · rintro ⟨hexact, hroom⟩
    rw [UInt32.le_iff_toNat_le, hmax] at hroom
    omega
  · intro h
    constructor
    · rw [hheader]
      dsimp only
      omega
    · rw [hheader, UInt32.le_iff_toNat_le, hmax]
      dsimp only
      omega

/-- Whatever a command sends can be received exactly when its arguments are short
enough. -/
theorem sent_receivable_iff (command : TCommandPair) :
    (∀ message, request command = some message → Receivable command message) ↔
      Short command := by
  by_cases h : command.IsCommand
  · rw [request_eq h, short_iff h, ← receivable_iff]
    simp
  · rw [request_eq_none h]
    rw [TCommandPair.IsCommand, not_or] at h
    exact iff_of_true nofun ⟨fun hget => absurd hget h.1, fun hset => absurd hset h.2⟩

/-- A command file with one line, which gets a key of `n` bytes. -/
def longKey (n : ℕ) : Str := GET ++ SPACE :: List.replicate n 107 ++ [NEWLINE]

theorem loadFile_longKey (path : String) (n : ℕ) :
    loadFile path (some (longKey n)) [] =
      { comands := [⟨ECMD.READ_REQUEST, List.replicate n 107⟩], thrown := none, fatal := [] } := by
  have hline : NEWLINE ∉ GET ++ SPACE :: List.replicate n 107 := by
    simp [GET, SPACE, NEWLINE, List.mem_replicate]
  have hlines : lines NEWLINE (longKey n) = [GET ++ SPACE :: List.replicate n 107] :=
    lines_append_sep hline []
  rw [loadFile, hlines, loadLines, if_neg (by simp), TCommandPair.parse_get]
  rfl

theorem longKey_not_receivable :
    ∃ command message, loadFile "ops.txt" (some (longKey 4089)) [] =
        { comands := [command], thrown := none, fatal := [] } ∧
      request command = some message ∧ (THeader.ofBytes message).size = 4097 ∧
      ¬Receivable command message := by
  have hlen : (content ⟨ECMD.READ_REQUEST, List.replicate 4089 107⟩).length = 4089 :=
    List.length_replicate
  refine ⟨_, _, loadFile_longKey "ops.txt" 4089, request_eq (Or.inl rfl), ?_, ?_⟩
  · rw [THeader.ofBytes_makeCommand, hlen]
    rfl
  · rw [receivable_iff, hlen]
    decide

end GJServer.Client
