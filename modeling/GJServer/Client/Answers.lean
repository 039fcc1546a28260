import GJServer.Client.Runtime

/-!
What a message does to the command that waits for its answer. `VerifyResponse` lets
through whatever has a code, `ResolveHandler` looks at the code for the sake of the value
only, and `ProcessCommand` does not see it at all.
-/

namespace GJServer.Client

open Library Exec Net

/-- The main thread waits for the answer to `command`. -/
structure Pending (s : State) (command : TCommandPair) : Prop where
  main : s.main = .waiting
  todo : s.todo.head? = some command
  promise : s.promise.value = none

/-- The session drops its connection: `ProcessDisconnect` has begun, and every attempt
to reconnect closes the socket first. -/
def State.Dropping (s : State) : Prop := ∃ attempts cause, s.net = .reconnecting attempts cause

/-- A get ends with the content of a read response and a set with a write response. Any
other frame is an error, and the session drops the connection. -/
def EndsOnAnswer (command : TCommandPair) (frame : Str) (s : State) : Prop :=
  let header := THeader.ofBytes frame
  if command.cmd = ECMD.READ_REQUEST ∧ header.version = 0 ∧ header.cmd = ECMD.READ_RESPONSE then
    ∃ value, s.promise.value = some (.EOK, value) ∧
      (conclude command (.EOK, value)).printed = some (command.args, frame.drop 8)
  else if command.cmd = ECMD.WRITE_REQUEST ∧ header.version = 0 ∧
      header.cmd = ECMD.WRITE_RESPONSE then
    ∃ value, s.promise.value = some (.EOK, value)
  else (∃ value, s.promise.value = some (.EUNEXP, value)) ∧ s.Dropping

/-- The header is of another version, has the code zero, or is that of the response to the
command. -/
def Recognizable (command : TCommandPair) (header : THeader) : Prop :=
  header.version = 0 → header.cmd = ECMD.None ∨
    command.cmd = ECMD.READ_REQUEST ∧ header.cmd = ECMD.READ_RESPONSE ∨
    command.cmd = ECMD.WRITE_REQUEST ∧ header.cmd = ECMD.WRITE_RESPONSE

variable {s s' : State} {command : TCommandPair} {i connection : ℕ} {frame : Str}

theorem promise_setValue (h : s.promise.value = none) (result : Result) (next : Network) :
    (s.setValue result next).promise.value = some result := by
  rw [State.setValue, h]

/-- A message reaches a promise that has no value yet, and a rejected one leads to
`ProcessDisconnect`. -/
theorem promise_handle {message : Str} (hpromise : s.promise.value = none)
    (hop : s.operations[i]? = some ⟨.read, connection, .succeeded⟩)
    (hstep : step s (.handle i (some message)) = some s') :
    s'.promise.value = some (resolveHandler message).result ∧
      ((resolveHandler message).answer = false → s'.Dropping) := by
  have hwithout : (s.without i).promise.value = none := hpromise
  cases (step_cases hstep).2 with
  | written _ _ _ _ hop' => cases hop.symm.trans hop'
  | accepted _ _ _ _ _ hanswer =>
      refine ⟨promise_setValue hwithout _ _, fun hrejected => ?_⟩
      cases hanswer.symm.trans hrejected
  | crashed _ _ _ _ _ _ hvalue => exact absurd hpromise hvalue
  | rejected =>
      exact ⟨promise_setValue hwithout _ _, fun _ => ⟨_, _, net_setValue_of_none hwithout _ _⟩⟩
  | failed _ _ _ _ _ hop' => cases hop.symm.trans hop'

theorem resolveHandler_rejected (h : (THeader.ofBytes frame).verifyResponse = false) :
    (resolveHandler frame).answer = false ∧ (resolveHandler frame).result = (.EUNEXP, []) := by
  rw [resolveHandler, h]
  exact ⟨rfl, rfl⟩

theorem result_accepted (h : (THeader.ofBytes frame).verifyResponse = true) :
    (resolveHandler frame).result = (.EOK,
      if (THeader.ofBytes frame).cmd = ECMD.READ_RESPONSE then THeader.contentView frame
      else []) := by
  rw [resolveHandler, h]
  rfl

/-- An accepted frame ends every command well, and that is right for the response to it
only. -/
theorem endsOnAnswer_iff_of_accepted (hframe : frameFormat.IsFrame frame)
    (hvalue : s.promise.value = some (resolveHandler frame).result)
    (haccepted : (THeader.ofBytes frame).verifyResponse = true)
    (hversion : (THeader.ofBytes frame).version = 0) :
    EndsOnAnswer command frame s ↔
      command.cmd = ECMD.READ_REQUEST ∧ (THeader.ofBytes frame).cmd = ECMD.READ_RESPONSE ∨
        command.cmd = ECMD.WRITE_REQUEST ∧
          (THeader.ofBytes frame).cmd = ECMD.WRITE_RESPONSE := by
  rw [result_accepted haccepted] at hvalue
  simp only [EndsOnAnswer, hversion, true_and]
  by_cases hread : command.cmd = ECMD.READ_REQUEST ∧
      (THeader.ofBytes frame).cmd = ECMD.READ_RESPONSE
  · rw [if_pos hread.2, THeader.contentView_of_isFrame hframe] at hvalue
    rw [if_pos hread]
    refine iff_of_true ⟨_, hvalue, ?_⟩ (Or.inl hread)
    rw [conclude, if_pos hread.1]
  · by_cases hwrite : command.cmd = ECMD.WRITE_REQUEST ∧
        (THeader.ofBytes frame).cmd = ECMD.WRITE_RESPONSE
    · rw [if_neg hread, if_pos hwrite]
      exact iff_of_true ⟨_, hvalue⟩ (Or.inr hwrite)
    · rw [if_neg hread, if_neg hwrite]
      refine iff_of_false ?_ (not_or.mpr ⟨hread, hwrite⟩)
      rintro ⟨⟨value, herror⟩, -⟩
      cases hvalue.symm.trans herror

/-- A frame that arrives while a command is pending does to it what it should exactly
when `ResolveHandler` can tell what it is. -/
theorem endsOnAnswer_iff (stale : Str) (hpending : Pending s command)
    (hframe : frameFormat.IsFrame frame)
    (hop : s.operations[i]? = some ⟨.read, connection, .succeeded⟩)
    (hstep : step s (.handle i (some (frame ++ stale))) = some s') :
    EndsOnAnswer command frame s' ↔ Recognizable command (THeader.ofBytes frame) := by
  obtain ⟨hvalue, hdrop⟩ := promise_handle hpending.promise hop hstep
  rw [resolveHandler_append stale hframe] at hvalue hdrop
  have hverify := THeader.verifyRequest_eq_false_iff (THeader.ofBytes frame)
  rw [← THeader.verifyResponse_eq_verifyRequest] at hverify
  cases haccepted : (THeader.ofBytes frame).verifyResponse with
  | false =>
      have hnone := hverify.mp haccepted
      obtain ⟨hanswer, hresult⟩ := resolveHandler_rejected haccepted
      have hcode (cmd : ECMD) (hcmd : cmd ≠ ECMD.None) :
          ¬((THeader.ofBytes frame).version = 0 ∧ (THeader.ofBytes frame).cmd = cmd) :=
        fun h => hcmd (h.2.symm.trans (hnone h.1))
      rw [EndsOnAnswer, if_neg fun h => hcode _ (by decide) h.2,
        if_neg fun h => hcode _ (by decide) h.2]
      exact iff_of_true ⟨⟨[], hresult ▸ hvalue⟩, hdrop hanswer⟩
        fun hversion => Or.inl (hnone hversion)
  | true =>
      have hknown := mt hverify.mpr (by simp [haccepted])
      rw [Classical.not_imp] at hknown
      obtain ⟨hversion, hcmd⟩ := hknown
      rw [endsOnAnswer_iff_of_accepted hframe hvalue haccepted hversion]
      simp only [Recognizable, hversion, hcmd, forall_const, false_or]

/-- A command is sent and the pending read completes. -/
def sendAndReceive : List Event := [.install, .send, .finish 0 true]

/-- A get is answered with a request, and prints an empty value. -/
theorem request_taken_for_answer :
    ∃ s s', exec step (start [⟨ECMD.READ_REQUEST, [107]⟩]) sendAndReceive = some s ∧
      Pending s ⟨ECMD.READ_REQUEST, [107]⟩ ∧
      frameFormat.IsFrame (Message.frame ⟨ECMD.READ_REQUEST, []⟩) ∧
      step s (.handle 0 (some (Message.frame ⟨ECMD.READ_REQUEST, []⟩))) = some s' ∧
      s'.promise.value = some (.EOK, []) ∧ s'.net = .idle ∧
      ¬EndsOnAnswer ⟨ECMD.READ_REQUEST, [107]⟩ (Message.frame ⟨ECMD.READ_REQUEST, []⟩) s' := by
  refine ⟨_, _, rfl, ⟨rfl, rfl, rfl⟩, Message.isFrame (by decide), rfl, rfl, rfl, ?_⟩
  rw [EndsOnAnswer, if_neg (by decide), if_neg (by decide)]
  rintro ⟨⟨value, herror⟩, -⟩
  cases herror

theorem endsOnAnswer_readResponse :
    ∃ s s', exec step (start [⟨ECMD.READ_REQUEST, [107]⟩]) sendAndReceive = some s ∧
      (EndsOnAnswer ⟨ECMD.READ_REQUEST, [107]⟩ (Message.frame ⟨ECMD.READ_RESPONSE, [118]⟩) s' ↔
        Recognizable ⟨ECMD.READ_REQUEST, [107]⟩
          (THeader.ofBytes (Message.frame ⟨ECMD.READ_RESPONSE, [118]⟩))) := by
  have hrun : ∃ s, exec step (start [⟨ECMD.READ_REQUEST, [107]⟩]) sendAndReceive = some s ∧
      Pending s ⟨ECMD.READ_REQUEST, [107]⟩ ∧ s.operations[0]? = some ⟨.read, 0, .succeeded⟩ ∧
      ∃ s', step s (.handle 0 (some (Message.frame ⟨ECMD.READ_RESPONSE, [118]⟩ ++ [7]))) =
        some s' := ⟨_, rfl, ⟨rfl, rfl, rfl⟩, rfl, _, rfl⟩
  obtain ⟨s, hs, hpending, hop, s', hstep⟩ := hrun
  exact ⟨s, s', hs, endsOnAnswer_iff [7] hpending (Message.isFrame (by decide)) hop hstep⟩

end GJServer.Client
