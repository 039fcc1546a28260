import GJServer.Server.Handler

/-!
What `TGJServer::ResolveHandler` owes to each frame: one response that fits the
request, or a refusal. Its dispatch knows two codes and lets every other code that
passes `VerifyRequest` fall through.
-/

namespace GJServer.Server

open Library Net KVStorage

/-- The message is a whole response with this code and content. -/
structure IsResponse (message : Str) (cmd : ECMD) (content : Str) : Prop where
  isFrame : frameFormat.IsFrame message
  version : (THeader.ofBytes message).version = 0
  cmd : (THeader.ofBytes message).cmd = cmd
  content : THeader.contentView message = content

theorem isResponse_frame {cmd : ECMD} {content : Str} (h : Message.Fits ⟨cmd, content⟩) :
    IsResponse (Message.frame ⟨cmd, content⟩) cmd content where
  isFrame := Message.isFrame h
  version := by rw [Message.ofBytes_frame h]
  cmd := by rw [Message.ofBytes_frame h]
  content := Message.contentView_frame h

/-- A whole frame has no room for a content of `2 ^ 32 - 8` bytes. -/
theorem IsResponse.fits {message content : Str} {cmd : ECMD}
    (h : IsResponse message cmd content) : Message.Fits ⟨cmd, content⟩ := by
  have hlen : 8 ≤ message.length := h.isFrame.1
  have hsize : (THeader.ofBytes message).size.toNat = message.length := h.isFrame.2
  have hlt := (THeader.ofBytes message).size.toNat_lt
  have hcontent := congrArg List.length h.content
  rw [THeader.contentView, THeader.contentSize_toNat (by omega), List.length_take,
    List.length_drop] at hcontent
  show content.length + 8 < 2 ^ 32
  omega

theorem isResponse_readResponse_iff (value : Str) :
    IsResponse (readResponse value) ECMD.READ_RESPONSE value ↔ value.length + 8 < 2 ^ 32 :=
  ⟨IsResponse.fits, isResponse_frame⟩

theorem isResponse_writeResponse : IsResponse writeResponse ECMD.WRITE_RESPONSE [] :=
  isResponse_frame (by decide)

/-- A read is answered with the value of its key and a write with an empty response
once it has changed the map at its key, and nothing else is accepted. -/
def Answered (storage : TKVStorage) (request : Str) (resolved : Resolved) : Prop :=
  let header := THeader.ofBytes request
  if header.version = 0 ∧ header.cmd = ECMD.READ_REQUEST then
    resolved.answer = true ∧
      (∃ message, resolved.written = [message] ∧ IsResponse message ECMD.READ_RESPONSE
        ((storage.map.lookup (THeader.contentView request)).getD [])) ∧
      resolved.storage.map = storage.map
  else if header.version = 0 ∧ header.cmd = ECMD.WRITE_REQUEST then
    resolved.answer = true ∧
      (∃ message, resolved.written = [message] ∧
        IsResponse message ECMD.WRITE_RESPONSE []) ∧
      resolved.storage.map.lookup (requestPair request).1 = some (requestPair request).2 ∧
      ∀ key ≠ (requestPair request).1,
        resolved.storage.map.lookup key = storage.map.lookup key
  else
    resolved.answer = false ∧ resolved.written = [] ∧ resolved.storage.map = storage.map

theorem resolveHandler_refused {storage : TKVStorage} {request : Str}
    (h : (THeader.ofBytes request).verifyRequest = false) :
    resolveHandler storage request =
      { answer := false, storage := storage, written := []
        errors := ["Recieved invalid cmd code: " ++
          toString (THeader.ofBytes request).cmd.toNat] } := by
  rw [resolveHandler, h]
  rfl

/-- A request whose code is none of the two is accepted like them. -/
theorem resolveHandler_unknown {storage : TKVStorage} {request : Str}
    (h : (THeader.ofBytes request).verifyRequest = true)
    (hread : (THeader.ofBytes request).cmd ≠ ECMD.READ_REQUEST)
    (hwrite : (THeader.ofBytes request).cmd ≠ ECMD.WRITE_REQUEST) :
    resolveHandler storage request =
      { answer := true, storage := storage, written := [], errors := [] } := by
  simp only [resolveHandler, h, hread, hwrite, Bool.not_true, if_false]
  rfl

theorem verifyRequest_of_cmd {header : THeader} (hversion : header.version = 0)
    (hcmd : header.cmd ≠ ECMD.None) : header.verifyRequest = true := by
  rw [← Bool.not_eq_false, THeader.verifyRequest_eq_false_iff]
  exact fun h => hcmd (h hversion)

theorem answered_read_iff {storage : TKVStorage} {request : Str}
    (hversion : (THeader.ofBytes request).version = 0)
    (hcmd : (THeader.ofBytes request).cmd = ECMD.READ_REQUEST) :
    Answered storage request (resolveHandler storage request) ↔
      ((storage.map.lookup (THeader.contentView request)).getD []).length + 8 < 2 ^ 32 := by
  have hverify := verifyRequest_of_cmd hversion (by rw [hcmd]; decide)
  have hresolved : resolveHandler storage request =
      { answer := true, storage := storage, errors := []
        written := [readResponse ((storage.get (THeader.contentView request)).getD [])] } := by
    rw [resolveHandler, hverify, hcmd]
    rfl
  rw [Answered, if_pos ⟨hversion, hcmd⟩, hresolved, ← isResponse_readResponse_iff]
  constructor
  · rintro ⟨-, ⟨message, hwritten, hresponse⟩, -⟩
    obtain rfl := List.singleton_inj.mp hwritten
    exact hresponse
  · intro hresponse
    exact ⟨rfl, ⟨_, rfl, hresponse⟩, rfl⟩

theorem answered_write {storage : TKVStorage} {request : Str}
    (hversion : (THeader.ofBytes request).version = 0)
    (hcmd : (THeader.ofBytes request).cmd = ECMD.WRITE_REQUEST) :
    Answered storage request (resolveHandler storage request) := by
  have hverify := verifyRequest_of_cmd hversion (by rw [hcmd]; decide)
  have hresolved : resolveHandler storage request =
      { answer := true, errors := [], written := [writeResponse]
        storage := storage.set (requestPair request).1 (requestPair request).2 } := by
    rw [resolveHandler, hverify, hcmd]
    rfl
  have hread : ¬((THeader.ofBytes request).version = 0 ∧
      (THeader.ofBytes request).cmd = ECMD.READ_REQUEST) := by
    rw [hcmd]
    exact fun h => absurd h.2 (by decide)
  rw [Answered, if_neg hread, if_pos ⟨hversion, hcmd⟩, hresolved]
  refine ⟨rfl, ⟨_, rfl, isResponse_writeResponse⟩, Finmap.lookup_insert _, ?_⟩
  intro key hkey
  exact Finmap.lookup_insert_of_ne _ hkey

theorem answered_other_iff {storage : TKVStorage} {request : Str}
    (hread : ¬((THeader.ofBytes request).version = 0 ∧
      (THeader.ofBytes request).cmd = ECMD.READ_REQUEST))
    (hwrite : ¬((THeader.ofBytes request).version = 0 ∧
      (THeader.ofBytes request).cmd = ECMD.WRITE_REQUEST)) :
    Answered storage request (resolveHandler storage request) ↔
      (THeader.ofBytes request).verifyRequest = false := by
  rw [Answered, if_neg hread, if_neg hwrite]
  constructor
  · rintro ⟨hanswer, -⟩
    by_contra hverify
    rw [Bool.not_eq_false] at hverify
    have hversion : (THeader.ofBytes request).version = 0 := by
      rw [THeader.verifyRequest, THeader.verifyVersion, Bool.and_eq_true] at hverify
      exact eq_of_beq hverify.1
    rw [resolveHandler_unknown hverify (fun h => hread ⟨hversion, h⟩)
      (fun h => hwrite ⟨hversion, h⟩)] at hanswer
    cases hanswer
  · intro hverify
    rw [resolveHandler_refused hverify]
    exact ⟨rfl, rfl, rfl⟩

/-- The handler does what it owes to a frame exactly when the frame is of another
version, or its code is zero or one of the two it knows, and the value that a read
finds has room in a frame. -/
theorem answered_iff (storage : TKVStorage) (request : Str) :
    Answered storage request (resolveHandler storage request) ↔
      ((THeader.ofBytes request).version = 0 →
        (THeader.ofBytes request).cmd = ECMD.None ∨
          (THeader.ofBytes request).cmd = ECMD.WRITE_REQUEST ∨
          (THeader.ofBytes request).cmd = ECMD.READ_REQUEST ∧
            ((storage.map.lookup (THeader.contentView request)).getD []).length + 8 <
              2 ^ 32) := by
  by_cases hversion : (THeader.ofBytes request).version = 0
  · by_cases hread : (THeader.ofBytes request).cmd = ECMD.READ_REQUEST
    · have hnone : ¬ECMD.READ_REQUEST = ECMD.None := by decide
      have hother : ¬ECMD.READ_REQUEST = ECMD.WRITE_REQUEST := by decide
      simp only [answered_read_iff hversion hread, hversion, hread, hnone, hother,
        forall_const, false_or, true_and]
    · by_cases hwrite : (THeader.ofBytes request).cmd = ECMD.WRITE_REQUEST
      · exact iff_of_true (answered_write hversion hwrite) fun _ => Or.inr (Or.inl hwrite)
      · rw [answered_other_iff (fun h => hread h.2) (fun h => hwrite h.2),
          THeader.verifyRequest_eq_false_iff]
        simp only [hversion, hread, hwrite, forall_const, false_and, or_false]
  · rw [answered_other_iff (fun h => hversion h.1) (fun h => hversion h.1),
      THeader.verifyRequest_eq_false_iff]
    exact iff_of_true (fun h => absurd h hversion) fun h => absurd h hversion

/-- A peer sends a response where a request is expected, and waits for ever. -/
theorem unknown_unanswered :
    frameFormat.IsFrame (Message.frame ⟨ECMD.READ_RESPONSE, []⟩) ∧
      (resolveHandler ⟨∅, false⟩ (Message.frame ⟨ECMD.READ_RESPONSE, []⟩)).answer = true ∧
      (resolveHandler ⟨∅, false⟩ (Message.frame ⟨ECMD.READ_RESPONSE, []⟩)).written = [] ∧
      ¬Answered ⟨∅, false⟩ (Message.frame ⟨ECMD.READ_RESPONSE, []⟩)
        (resolveHandler ⟨∅, false⟩ (Message.frame ⟨ECMD.READ_RESPONSE, []⟩)) := by
  refine ⟨Message.isFrame (by decide), by decide, by decide, ?_⟩
  intro h
  have hanswer : (resolveHandler ⟨∅, false⟩
      (Message.frame ⟨ECMD.READ_RESPONSE, []⟩)).answer = false := h.1
  exact absurd hanswer (by decide)

end GJServer.Server
