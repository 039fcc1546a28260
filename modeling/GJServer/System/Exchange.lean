import GJServer.Client.Command
import GJServer.Net.Delivery
import GJServer.Server.Handler

/-!
One command on its way to the server and back: the handler of the server finds
in the request what the client put into it, and the client finds the answer.
-/

namespace GJServer.System

open Library Net KVStorage Client Server

/-- The content that the client sends for a set. -/
def setContent (args : Str) : Str :=
  (splitKeyValue args).1 ++ [KV_DELIMITER] ++ (splitKeyValue args).2

/-- Key and value that a command sets. -/
def pairOf (command : TCommandPair) : Option (Str × Str) :=
  if command.cmd = ECMD.WRITE_REQUEST then some (splitKeyValue command.args) else none

/-- A get or a set whose request has room in the buffer of a session. -/
inductive Sendable : TCommandPair → Prop
  | get {key : Str} (hsmall : Message.Small ⟨ECMD.READ_REQUEST, key⟩) :
      Sendable ⟨ECMD.READ_REQUEST, key⟩
  | set {args : Str} (hsmall : Message.Small ⟨ECMD.WRITE_REQUEST, setContent args⟩) :
      Sendable ⟨ECMD.WRITE_REQUEST, args⟩

theorem request_get (key : Str) :
    request ⟨ECMD.READ_REQUEST, key⟩ = some (Message.frame ⟨ECMD.READ_REQUEST, key⟩) := rfl

theorem request_set (args : Str) :
    request ⟨ECMD.WRITE_REQUEST, args⟩ =
      some (Message.frame ⟨ECMD.WRITE_REQUEST, setContent args⟩) := rfl

theorem isSome_request_of_pairOf {command : TCommandPair} {pair : Str × Str}
    (h : pairOf command = some pair) : (request command).isSome = true := by
  rw [pairOf, Option.ite_none_right_eq_some] at h
  rw [request, if_neg, if_pos h.1]
  · rfl
  · rw [h.1]
    decide

theorem readResponse_eq (value : Str) :
    readResponse value = Message.frame ⟨ECMD.READ_RESPONSE, value⟩ := rfl

theorem writeResponse_eq : writeResponse = Message.frame ⟨ECMD.WRITE_RESPONSE, []⟩ := rfl

/-- The client joins key and value with a delimiter that the server splits off
again. -/
theorem splitKeyValue_setContent (args : Str) :
    splitKeyValue (setContent args) = splitKeyValue args := by
  have hkey : KV_DELIMITER ∉ (splitKeyValue args).1 := by
    rw [splitKeyValue_eq]
    exact Delimited.not_mem_before args
  rw [setContent, List.append_assoc, List.singleton_append, splitKeyValue_eq (_ ++ _),
    Delimited.before_append_sep hkey, Delimited.after_append_sep hkey]

theorem requestPair_set {args : Str}
    (h : Message.Small ⟨ECMD.WRITE_REQUEST, setContent args⟩) :
    requestPair (Message.frame ⟨ECMD.WRITE_REQUEST, setContent args⟩) = splitKeyValue args := by
  rw [requestPair, Message.contentView_frame h.fits, splitKeyValue_setContent]

theorem resolveHandler_get {storage : TKVStorage} {key : Str}
    (h : Message.Small ⟨ECMD.READ_REQUEST, key⟩) :
    Server.resolveHandler storage (Message.frame ⟨ECMD.READ_REQUEST, key⟩) =
      { answer := true, storage := storage, errors := []
        written := [readResponse ((storage.get key).getD [])] } := by
  simp only [Server.resolveHandler, Message.ofBytes_frame h.fits, Message.contentView_frame h.fits]
  rfl

theorem resolveHandler_set {storage : TKVStorage} {args : Str}
    (h : Message.Small ⟨ECMD.WRITE_REQUEST, setContent args⟩) :
    Server.resolveHandler storage (Message.frame ⟨ECMD.WRITE_REQUEST, setContent args⟩) =
      { answer := true, errors := [], written := [writeResponse]
        storage := storage.set (splitKeyValue args).1 (splitKeyValue args).2 } := by
  rw [resolveHandler_write (isWriteRequest_frame h.fits), requestPair_set h]

/-- Processing the request of a command does to the map what the command says. -/
theorem map_resolveHandler {storage : TKVStorage} {command : TCommandPair} {message : Str}
    (hcommand : Sendable command) (hmessage : request command = some message) :
    (Server.resolveHandler storage message).storage.map =
      applySets storage.map (pairOf command).toList := by
  cases hcommand with
  | @get key hsmall =>
      obtain rfl := Option.some.inj ((request_get key).symm.trans hmessage)
      rw [resolveHandler_get hsmall]
      rfl
  | @set args hsmall =>
      obtain rfl := Option.some.inj ((request_set args).symm.trans hmessage)
      rw [resolveHandler_set hsmall]
      rfl

/-- The client accepts every answer of the server and takes its content as the
value of a get. -/
theorem resolveHandler_frame {cmd : ECMD} {content : Str} (h : Message.Small ⟨cmd, content⟩)
    (hcmd : cmd ≠ 0) :
    Client.resolveHandler (Message.frame ⟨cmd, content⟩) =
      { answer := true, errors := []
        result := (.EOK, if cmd = ECMD.READ_RESPONSE then content else []) } := by
  have hverify : THeader.verifyResponse ⟨0, cmd, .ofNat (content.length + 8)⟩ = true := by
    simpa [THeader.verifyResponse, THeader.verifyVersion] using hcmd
  rw [Client.resolveHandler, Message.ofBytes_frame h.fits, Message.contentView_frame h.fits,
    hverify]
  rfl

theorem resolveHandler_readResponse {value : Str}
    (h : Message.Small ⟨ECMD.READ_RESPONSE, value⟩) :
    (Client.resolveHandler (readResponse value)).result = (.EOK, value) := by
  rw [readResponse_eq, resolveHandler_frame h nofun]
  rfl

theorem resolveHandler_writeResponse :
    (Client.resolveHandler writeResponse).result = (.EOK, []) := by
  have hsmall : Message.Small ⟨ECMD.WRITE_RESPONSE, []⟩ := Nat.zero_le _
  rw [writeResponse_eq, resolveHandler_frame hsmall nofun]
  rfl

end GJServer.System
