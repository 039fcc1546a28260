import GJServer.Client.Runtime
import Mathlib.Data.List.Perm.Basic

/-!
How often a client reconnects. A lost connection shows in every operation that
was pending on it, and each of their handlers calls `ProcessDisconnect`. One loss
leads to one reconnection as long as the operation that fails first is the only
one that can: the others have succeeded, and none is added before the session is
connected again.
-/

namespace GJServer.Client

open Library Exec Net

def Operation.isRead (op : Operation) : Bool := op.kind = .read

/-- The reads of the session that are pending or not handled yet. -/
def State.reads (s : State) : ℕ := s.operations.countP Operation.isRead

/-- There is at most one read, and no connection was closed for an operation of
an earlier one. -/
structure OneReconnection (s : State) : Prop where
  reads : s.reads ≤ 1
  closed : ∀ p ∈ s.closed, ¬p.1 < p.2

/-- A write that has succeeded, so that its handler does nothing. -/
def Operation.Settled (op : Operation) : Prop := op.kind = .write ∧ op.progress = .succeeded

instance (op : Operation) : Decidable op.Settled := inferInstanceAs (Decidable (_ ∧ _))

def Network.isReconnecting : Network → Bool
  | .reconnecting _ _ => true
  | _ => false

/-- The handler of the operation calls `ProcessDisconnect`. -/
def Operation.disconnects (op : Operation) (message : Option Str) : Bool :=
  match op.progress, op.kind, message with
  | .failed, _, _ => true
  | .succeeded, .read, some message => !(resolveHandler message).answer
  | _, _, _ => false

/-- Every other operation has succeeded when `ProcessDisconnect` is called, and
nothing is written until the session is connected again. -/
def Undisturbed (s : State) : Event → Prop
  | .send => s.net.isReconnecting = false
  | .handle i message => ∀ op ∈ s.operations[i]?, op.disconnects message = true →
      ∀ other ∈ (s.without i).operations, other.Settled
  | _ => True

instance (s : State) : (e : Event) → Decidable (Undisturbed s e)
  | .send => inferInstanceAs (Decidable (_ = false))
  | .handle i _ => inferInstanceAs (Decidable (∀ op ∈ s.operations[i]?, _ → ∀ other ∈ _, _))
  | .install | .resume | .finish _ _ | .attempt _ | .report => isTrue trivial

/-- Only operations of this connection can still fail, and while the session
reconnects none can. -/
structure Current (s : State) : Prop where
  one : OneReconnection s
  current : ∀ op ∈ s.operations, op.connection = s.connection ∨ op.Settled
  cause : ∀ attempts cause, s.net = .reconnecting attempts cause →
    cause = s.connection ∧ ∀ op ∈ s.operations, op.Settled

section Fields

variable (s : State) (kind : Kind) (result : Result) (next : Network) (cause i : ℕ)

@[simp] theorem operations_setValue : (s.setValue result next).operations = s.operations := by
  unfold State.setValue
  split <;> rfl

@[simp] theorem connection_setValue : (s.setValue result next).connection = s.connection := by
  unfold State.setValue
  split <;> rfl

@[simp] theorem closed_setValue : (s.setValue result next).closed = s.closed := by
  unfold State.setValue
  split <;> rfl

theorem net_setValue :
    (s.setValue result next).net = next ∨ (s.setValue result next).net = .terminated := by
  by_cases h : s.promise.value = none
  · exact Or.inl (net_setValue_of_none h result next)
  · exact Or.inr (net_setValue_of_ne_none h result next)

@[simp] theorem reads_begin_write : (s.begin .write).reads = s.reads := by
  simp [State.reads, State.begin, Operation.isRead]

@[simp] theorem reads_begin_read : (s.begin .read).reads = s.reads + 1 := by
  simp [State.reads, State.begin, Operation.isRead]

@[simp] theorem reads_setValue : (s.setValue result next).reads = s.reads := by
  rw [State.reads, operations_setValue, State.reads]

@[simp] theorem reads_close : (s.close cause).reads = s.reads := by
  rw [State.reads, State.close, List.countP_map]
  congr 1
  ext op
  simp only [Function.comp_apply, Operation.isRead]
  split <;> rfl

end Fields

variable {s s' : State} {e : Event}

/-- Taking an operation out of the list. -/
theorem perm_without {i : ℕ} {op : Operation} (hop : s.operations[i]? = some op) :
    (op :: (s.without i).operations).Perm s.operations := by
  obtain ⟨hi, rfl⟩ := List.getElem?_eq_some_iff.mp hop
  exact List.getElem_cons_eraseIdx_perm hi

theorem reads_without {i : ℕ} {op : Operation} (hop : s.operations[i]? = some op) :
    s.reads = (s.without i).reads + if op.isRead then 1 else 0 := by
  rw [State.reads, ← (perm_without hop).countP_eq, List.countP_cons, State.reads]

theorem mem_of_mem_without {i : ℕ} {op : Operation} (h : op ∈ (s.without i).operations) :
    op ∈ s.operations := List.mem_of_mem_eraseIdx h

theorem mem_begin {kind : Kind} {op : Operation} (h : op ∈ (s.begin kind).operations) :
    op ∈ s.operations ∨ op.connection = s.connection := by
  rcases List.mem_append.mp h with h | h
  · exact Or.inl h
  · rw [List.mem_singleton.mp h]
    exact Or.inr rfl

theorem Operation.Settled.closed {op : Operation} (h : op.Settled) :
    (if op.progress = .pending then { op with progress := .failed } else op) = op := by
  rw [h.2, if_neg nofun]

/-- Closing the socket does nothing to operations that have succeeded. -/
theorem operations_close (cause : ℕ) (h : ∀ op ∈ s.operations, op.Settled) :
    (s.close cause).operations = s.operations :=
  (List.map_congr_left fun op hop => (h op hop).closed).trans (List.map_id _)

theorem reads_eq_zero (h : ∀ op ∈ s.operations, op.Settled) : s.reads = 0 := by
  refine List.countP_eq_zero.mpr fun op hop => ?_
  simp [Operation.isRead, (h op hop).1]

theorem closed_close {cause : ℕ} (h : ∀ p ∈ s.closed, ¬p.1 < p.2)
    (hcause : cause = s.connection) : ∀ p ∈ (s.close cause).closed, ¬p.1 < p.2 := by
  intro p hp
  simp only [State.close] at hp
  split at hp
  · rcases List.mem_append.mp hp with hp | hp
    · exact h p hp
    · rw [List.mem_singleton.mp hp, hcause]
      exact lt_irrefl _
  · exact h p hp

/-- Handling an operation without a disconnect, and reading again after a read. -/
theorem Current.handled (h : Current s) {i : ℕ} {op : Operation}
    (hop : s.operations[i]? = some op) {next : State}
    (hoperations : ∀ other ∈ next.operations, other ∈ (s.without i).operations ∨
      other.connection = s.connection)
    (hreads : next.reads ≤ (s.without i).reads + if op.isRead then 1 else 0)
    (hconnection : next.connection = s.connection) (hclosed : next.closed = s.closed)
    (hnet : ∀ attempts cause, next.net ≠ .reconnecting attempts cause) : Current next where
  one := ⟨hreads.trans ((reads_without hop).symm.trans_le h.one.reads), hclosed ▸ h.one.closed⟩
  current other hother := by
    rw [hconnection]
    rcases hoperations other hother with hmem | hsame
    · exact h.current other (mem_of_mem_without hmem)
    · exact Or.inl hsame
  cause attempts cause hr := absurd hr (hnet attempts cause)

/-- The handler of an operation that is not settled calls `ProcessDisconnect`, and
all others are. -/
theorem Current.disconnected (h : Current s) {i : ℕ} {op : Operation}
    (hop : s.operations[i]? = some op) (hunsettled : ¬op.Settled)
    (hothers : ∀ other ∈ (s.without i).operations, other.Settled) {next : State}
    (hoperations : next.operations = (s.without i).operations)
    (hconnection : next.connection = s.connection) (hclosed : next.closed = s.closed)
    (hnet : next.net = reconnecting op ∨ next.net = .terminated) : Current next where
  one := by
    refine ⟨?_, hclosed ▸ h.one.closed⟩
    rw [reads_eq_zero (hoperations ▸ hothers)]
    exact Nat.zero_le 1
  current other hother := Or.inr (hothers other (hoperations ▸ hother))
  cause attempts cause hr := by
    rcases hnet with hnet | hnet <;> rw [hnet] at hr
    · obtain ⟨-, rfl⟩ := Network.reconnecting.inj hr
      rw [hconnection, hoperations]
      have hmem : op ∈ s.operations := List.mem_of_getElem? hop
      exact ⟨(h.current op hmem).resolve_right hunsettled, hothers⟩
    · cases hr

/-- `ProcessDisconnect` reports what has become of the connection. -/
theorem Current.reported (h : Current s) (result : Result) {next : Network}
    (hnext : next.isReconnecting = false) : Current (s.setValue result next) where
  one := by
    refine ⟨(reads_setValue s result next).trans_le h.one.reads, ?_⟩
    rw [closed_setValue]
    exact h.one.closed
  current := by
    rw [operations_setValue, connection_setValue]
    exact h.current
  cause attempts cause hr := by
    rcases net_setValue s result next with hnet | hnet
    · rw [← hnet, hr] at hnext
      cases hnext
    · cases hnet.symm.trans hr

theorem current_step (h : Current s) (hcond : Undisturbed s e) (hstep : Step s e s') :
    Current s' := by
  cases hstep with
  | install => exact ⟨⟨h.one.reads, h.one.closed⟩, h.current, h.cause⟩
  | throw => exact ⟨⟨h.one.reads, h.one.closed⟩, h.current, h.cause⟩
  | resume => exact ⟨⟨h.one.reads, h.one.closed⟩, h.current, h.cause⟩
  | send =>
      refine ⟨⟨?_, h.one.closed⟩, fun op hop => ?_, fun attempts cause hr => ?_⟩
      · exact (reads_begin_write s).trans_le h.one.reads
      · exact (mem_begin hop).elim (h.current op) Or.inl
      · change s.net = .reconnecting attempts cause at hr
        rw [Undisturbed, hr] at hcond
        cases hcond
  | finish i ok kind connection hop =>
      -- an operation that was still pending is one of this connection
      have hmem := List.mem_of_getElem? hop
      obtain ⟨hi, hget⟩ := List.getElem?_eq_some_iff.mp hop
      refine ⟨⟨?_, h.one.closed⟩, fun op hop' => ?_, fun attempts cause hr => ?_⟩
      · have hperm := List.set_perm_cons_eraseIdx hi
          (⟨kind, connection, if ok then .succeeded else .failed⟩ : Operation)
        refine le_trans (le_of_eq ?_) ((reads_without hop).symm.trans_le h.one.reads)
        rw [State.reads, hperm.countP_eq, List.countP_cons]
        rfl
      · rcases List.mem_or_eq_of_mem_set hop' with hop' | rfl
        · exact h.current op hop'
        · refine Or.inl ((h.current _ hmem).resolve_right ?_)
          rintro ⟨-, hsucceeded⟩
          cases hsucceeded
      · -- and there is none while the session reconnects
        obtain ⟨-, hsucceeded⟩ := (h.cause attempts cause hr).2 _ hmem
        cases hsucceeded
  | written i message connection hnet hop =>
      refine h.handled hop (fun other => Or.inl) (Nat.le_add_right ..) rfl rfl ?_
      intro attempts cause hr
      cases hnet.symm.trans hr
  | unfinished i connection hnet hop =>
      refine h.handled hop (fun other => mem_begin) (reads_begin_read _).le rfl rfl ?_
      intro attempts cause hr
      cases hnet.symm.trans hr
  | accepted i message connection hnet hop hanswer hvalue =>
      refine h.handled hop (fun other hother => ?_) ?_ ?_ ?_ ?_
      · rw [← operations_setValue (s.without i) (resolveHandler message).result .idle]
        exact (mem_begin hother).imp_right fun h => h.trans (connection_setValue ..)
      · simp [Operation.isRead]
      · exact connection_setValue ..
      · exact closed_setValue ..
      · intro attempts cause hr
        cases (net_setValue_of_none (s := s.without i) hvalue _ _).symm.trans hr
  | crashed i message connection hnet hop hanswer hvalue =>
      refine h.handled hop (fun other hother => ?_) ?_ ?_ ?_ ?_
      · exact Or.inl (by simpa using hother)
      · exact (reads_setValue ..).trans_le (Nat.le_add_right ..)
      · exact connection_setValue ..
      · exact closed_setValue ..
      · intro attempts cause hr
        cases (net_setValue_of_ne_none (s := s.without i) hvalue _ _).symm.trans hr
  | rejected i message connection hnet hop hanswer =>
      refine h.disconnected hop nofun ?_ ?_ ?_ ?_ (net_setValue ..)
      · exact hcond _ hop (by simp [Operation.disconnects, hanswer])
      · exact operations_setValue ..
      · exact connection_setValue ..
      · exact closed_setValue ..
  | failed i message kind connection hnet hop =>
      exact h.disconnected hop nofun (hcond _ hop rfl) rfl rfl rfl (Or.inl rfl)
  | attemptOk attempts cause hnet =>
      obtain ⟨hcause, hsettled⟩ := h.cause _ cause hnet
      have hclosed := closed_close h.one.closed hcause
      refine ⟨⟨?_, hclosed⟩, fun op hop => ?_, nofun⟩
      · have hreads : (s.close cause).connect.reads = (s.close cause).reads + 1 :=
          reads_begin_read _
        rw [hreads, reads_close, reads_eq_zero hsettled]
      · rcases mem_begin hop with hop | hop
        · rw [show _ = s.operations from operations_close cause hsettled] at hop
          exact Or.inr (hsettled op hop)
        · exact Or.inl hop
  | attemptFailed attempts cause hnet =>
      obtain ⟨hcause, hsettled⟩ := h.cause _ cause hnet
      have hclosed := closed_close h.one.closed hcause
      have hoperations := operations_close cause hsettled
      refine ⟨⟨(reads_close s cause).trans_le h.one.reads, hclosed⟩, fun op hop => ?_,
        fun n c hr => ?_⟩
      · exact Or.inr (hsettled op (hoperations ▸ hop))
      · dsimp only at hr
        split at hr
        · cases hr
        · obtain ⟨-, rfl⟩ := Network.reconnecting.inj hr
          exact ⟨hcause, fun op hop => hsettled op (hoperations ▸ hop)⟩
  | reportFailure hnet => exact h.reported _ rfl
  | reportSuccess hnet => exact h.reported _ rfl

theorem current_start (commands : List TCommandPair) : Current (start commands) where
  one := ⟨le_rfl, nofun⟩
  current := by simp [start]
  cause := nofun

/-- In a run in which nothing disturbs a reconnection, one loss leads to one. -/
theorem oneReconnection_of_undisturbed (commands : List TCommandPair) (events : List Event)
    (hmeet : StepsMeet step Undisturbed (start commands) events) (s : State)
    (hrun : exec step (start commands) events = some s) : OneReconnection s :=
  (exec_invariant_of_stepsMeet
    (fun _ _ _ h hcond hstep => current_step h hcond (step_cases hstep).2)
    (current_start commands) hmeet hrun).one

/-- The write of a request fails, and the read that was pending then closes the
next connection. -/
def failedWrite : List Event :=
  [.install, .send, .finish 1 false, .handle 1 none, .attempt true, .report, .handle 0 none,
    .attempt true]

theorem failedWrite_reconnects_twice :
    ∃ s, exec step (start [⟨ECMD.WRITE_REQUEST, [107, 32, 118]⟩]) failedWrite = some s ∧
      ¬s.reads ≤ 1 ∧ ∃ p ∈ s.closed, p.1 < p.2 := by
  refine ⟨_, rfl, ?_, (0, 1), ?_, ?_⟩ <;> decide

/-- The connection is lost after the request has been written, and the second
attempt succeeds. -/
def lostAnswer : List Event :=
  [.install, .send, .finish 1 true, .handle 1 none, .finish 0 false, .handle 0 none,
    .attempt false, .attempt true, .report, .resume]

theorem oneReconnection_lostAnswer :
    ∃ s, exec step (start [⟨ECMD.WRITE_REQUEST, [107, 32, 118]⟩]) lostAnswer = some s ∧
      OneReconnection s := by
  have hrun : ∃ s, exec step (start [⟨ECMD.WRITE_REQUEST, [107, 32, 118]⟩]) lostAnswer =
      some s := ⟨_, rfl⟩
  obtain ⟨s, hs⟩ := hrun
  exact ⟨s, hs, oneReconnection_of_undisturbed _ lostAnswer (by decide) s hs⟩

end GJServer.Client
