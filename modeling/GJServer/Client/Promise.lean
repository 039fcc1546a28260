import GJServer.Client.Runtime

/-!
The promise between the two threads of a client. The network thread sets it
wherever a message arrives and wherever `ProcessDisconnect` ends, whether or not
the main thread is waiting for it, and `ProcessDisconnect` goes on after it has
reported that the connection is lost for good.
-/

namespace GJServer.Client

open Library Exec Net

def Network.lastAttempt : Network → Bool
  | .reconnecting 1 _ => true
  | _ => false

/-- A message or an error is handled while the promise is not set, the message is
accepted, and the last attempt to reconnect does not fail. -/
def Awaited (s : State) : Event → Prop
  | .handle i message => ∀ op ∈ s.operations[i]?,
      (op.progress = .failed → s.promise.value = none) ∧
        (op.kind = .read ∧ op.progress = .succeeded → ∀ m ∈ message,
          s.promise.value = none ∧ (resolveHandler m).answer = true)
  | .attempt false => s.net.lastAttempt = false
  | _ => True

instance (s : State) : (e : Event) → Decidable (Awaited s e)
  | .handle i message => inferInstanceAs (Decidable (∀ op ∈ s.operations[i]?,
      (_ → _) ∧ (_ ∧ _ → ∀ m ∈ message, _ ∧ _)))
  | .attempt false => inferInstanceAs (Decidable (_ = false))
  | .install | .send | .resume | .finish _ _ | .attempt true | .report => isTrue trivial

/-- No promise has been set twice, the one in place has not been set while its
value is missing, and its value is missing throughout `ProcessDisconnect`. -/
structure Unspent (s : State) : Prop where
  nodup : s.received.Nodup
  bound : ∀ id ∈ s.received, id ≤ s.promise.id
  fresh : s.promise.value = none → s.promise.id ∉ s.received
  awaited : s.net ≠ .idle → s.promise.value = none
  alive : s.net ≠ .terminated ∧ s.net ≠ .givingUp

variable {s s' : State} {e : Event}

theorem Unspent.setValue (h : Unspent s) (hvalue : s.promise.value = none) (result : Result) :
    Unspent (s.setValue result .idle) := by
  rw [State.setValue, hvalue]
  exact
    { nodup := List.nodup_append.mpr ⟨h.nodup, List.nodup_singleton _, fun id hid other hother =>
        List.mem_singleton.mp hother ▸ fun heq => h.fresh hvalue (heq ▸ hid)⟩
      bound := fun id hid => by
        rcases List.mem_append.mp hid with hid | hid
        · exact h.bound id hid
        · exact (List.mem_singleton.mp hid).le
      fresh := fun hnone => by cases hnone
      awaited := fun hnet => absurd rfl hnet
      alive := ⟨(fun hnet => by cases hnet), (fun hnet => by cases hnet)⟩ }

theorem unspent_step (h : Unspent s) (hcond : Awaited s e) (hstep : Step s e s') :
    Unspent s' := by
  cases hstep with
  | install hmain =>
      have hnew : s.promise.id + 1 ∉ s.received := fun hid =>
        absurd (h.bound _ hid) (Nat.not_succ_le_self _)
      exact
        { nodup := h.nodup
          bound := fun id hid => (h.bound id hid).trans (Nat.le_succ _)
          fresh := fun _ => hnew
          awaited := fun _ => rfl
          alive := h.alive }
  | send => exact ⟨h.nodup, h.bound, h.fresh, h.awaited, h.alive⟩
  | throw => exact ⟨h.nodup, h.bound, h.fresh, h.awaited, h.alive⟩
  | resume => exact ⟨h.nodup, h.bound, h.fresh, h.awaited, h.alive⟩
  | finish => exact ⟨h.nodup, h.bound, h.fresh, h.awaited, h.alive⟩
  | written => exact ⟨h.nodup, h.bound, h.fresh, h.awaited, h.alive⟩
  | unfinished => exact ⟨h.nodup, h.bound, h.fresh, h.awaited, h.alive⟩
  | accepted i message connection hnet hop hanswer hvalue =>
      have hwithout : Unspent (s.without i) := ⟨h.nodup, h.bound, h.fresh, h.awaited, h.alive⟩
      have hset := hwithout.setValue hvalue (resolveHandler message).result
      exact ⟨hset.nodup, hset.bound, hset.fresh, hset.awaited, hset.alive⟩
  | crashed i message connection hnet hop hanswer hvalue =>
      exact absurd ((hcond _ hop).2 ⟨rfl, rfl⟩ message rfl).1 hvalue
  | rejected i message connection hnet hop hanswer =>
      cases hanswer.symm.trans ((hcond _ hop).2 ⟨rfl, rfl⟩ message rfl).2
  | failed i message kind connection hnet hop =>
      exact
        { nodup := h.nodup
          bound := h.bound
          fresh := h.fresh
          awaited := fun _ => (hcond _ hop).1 rfl
          alive := ⟨nofun, nofun⟩ }
  | attemptOk attempts cause hnet =>
      have hvalue := h.awaited (by rw [hnet]; nofun)
      exact ⟨h.nodup, h.bound, h.fresh, fun _ => hvalue, nofun, nofun⟩
  | attemptFailed attempts cause hnet =>
      have hvalue := h.awaited (by rw [hnet]; nofun)
      have hattempts : attempts ≠ 0 := by
        rintro rfl
        rw [Awaited, hnet] at hcond
        cases hcond
      refine ⟨h.nodup, h.bound, h.fresh, fun _ => hvalue, ?_⟩
      rw [if_neg hattempts]
      exact ⟨nofun, nofun⟩
  | reportFailure hnet => exact absurd hnet h.alive.2
  | reportSuccess hnet =>
      -- nothing has set the promise since `ProcessDisconnect` began
      exact h.setValue (h.awaited (by rw [hnet]; nofun)) _

theorem unspent_start (commands : List TCommandPair) : Unspent (start commands) where
  nodup := List.nodup_nil
  bound := nofun
  fresh := nofun
  awaited := nofun
  alive := ⟨nofun, nofun⟩

/-- In a run in which each message and each error finds the promise waiting, none
is set twice. -/
theorem received_nodup_of_awaited (commands : List TCommandPair) (events : List Event)
    (hmeet : StepsMeet step Awaited (start commands) events) (s : State)
    (hrun : exec step (start commands) events = some s) : s.received.Nodup :=
  (exec_invariant_of_stepsMeet
    (fun _ _ _ h hcond hstep => unspent_step h hcond (step_cases hstep).2)
    (unspent_start commands) hmeet hrun).nodup

/-- The connection is lost and every attempt to reconnect fails. -/
def lostForGood : List Event :=
  [.install, .send, .finish 0 false, .handle 0 none, .attempt false, .attempt false,
    .attempt false, .attempt false, .attempt false, .report, .report]

theorem lostForGood_sets_twice :
    ∃ s, exec step (start [⟨ECMD.WRITE_REQUEST, [107, 32, 118]⟩]) lostForGood = some s ∧
      ¬s.received.Nodup ∧ s.net = .terminated := by
  refine ⟨_, rfl, ?_, rfl⟩
  decide

/-- A command is sent again after a reconnection and then answered. -/
def retriedCommand : List Event :=
  [.install, .send, .finish 1 true, .handle 1 none, .finish 0 false, .handle 0 none,
    .attempt true, .report, .resume, .install, .send, .finish 0 true,
    .handle 0 (some (Message.frame ⟨ECMD.WRITE_RESPONSE, []⟩)), .resume]

theorem received_nodup_retriedCommand :
    ∃ s, exec step (start [⟨ECMD.WRITE_REQUEST, [107, 32, 118]⟩]) retriedCommand = some s ∧
      s.received.Nodup := by
  have hrun : ∃ s, exec step (start [⟨ECMD.WRITE_REQUEST, [107, 32, 118]⟩]) retriedCommand =
      some s := ⟨_, rfl⟩
  obtain ⟨s, hs⟩ := hrun
  exact ⟨s, hs, received_nodup_of_awaited _ retriedCommand (by decide) s hs⟩

end GJServer.Client
