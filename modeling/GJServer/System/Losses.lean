import GJServer.System.Attempts

/-!
Nothing but the losses of its own connection holds a client up. Whatever the other clients
do, a command takes three steps as long as no connection is lost, each loss costs two more,
and from any state on the client comes to its end without the others.
-/

namespace GJServer.System.Attempts

open Library Exec Linearization Net KVStorage Server GJServer.Client

variable {nclients : ℕ}

namespace Event

def client : Event nclients → Fin nclients
  | .send i | .process i | .answer i | .lose i | .stale i _ | .drop i _ => i

def isLoss : Event nclients → Bool
  | .lose _ => true
  | _ => false

/-- The next step of a command whose connection is not lost. -/
def isAdvance : Event nclients → Bool
  | .send _ | .process _ | .answer _ => true
  | _ => false

/-- A step of client `i`, or one of the server for it. -/
def works (i : Fin nclients) (e : Event nclients) : Bool := e.client = i && !e.isLoss

def loses (i : Fin nclients) (e : Event nclients) : Bool := e.client = i && e.isLoss

end Event

/-- How many steps of its command the client has behind it. -/
def Client.behind (c : Client nclients) : ℕ :=
  match c.stage with
  | .ready => 0
  | .requested _ => 1
  | .answered _ => 2

/-- From `c` to `c'` in `works` steps and `losses` of the connection. -/
def Client.Moved (c c' : Client nclients) (works losses : ℕ) : Prop :=
  3 * c'.todo.length + c'.abandoned.length + c.behind + works =
    3 * c.todo.length + c.abandoned.length + 2 * losses + c'.behind

variable {file : Str} {commands : Fin nclients → List TCommandPair}
variable {s s' : State nclients} {i : Fin nclients} {e : Event nclients}
variable {c c' c'' : Client nclients} {works works' losses losses' : ℕ}

theorem Client.Moved.trans (h : c.Moved c' works losses) (h' : c'.Moved c'' works' losses') :
    c.Moved c'' (works + works') (losses + losses') := by
  unfold Client.Moved at *
  omega

theorem moved_eraseIdx {n : ℕ} (hn : n < c.abandoned.length) :
    c.Moved { c with abandoned := c.abandoned.eraseIdx n } 1 0 := by
  have hlength := List.length_eraseIdx_add_one hn
  simp only [Client.Moved, Client.behind]
  omega

/-- What a step does for its client; it changes no other. -/
theorem moved_client (hstep : step s e = some s') :
    ∃ c, s'.clients = Function.update s.clients e.client c ∧
      (s.clients e.client).Moved c (!e.isLoss).toNat e.isLoss.toNat ∧
      (e.isAdvance = true → c.abandoned = (s.clients e.client).abandoned) := by
  cases e with
  | send i =>
      simp only [step] at hstep
      split at hstep
      · next command rest hstage htodo =>
          obtain ⟨message, -, rfl⟩ := Option.map_eq_some_iff.mp hstep
          refine ⟨_, rfl, ?_, fun _ => rfl⟩
          simp [Client.Moved, Client.behind, Event.client, Event.isLoss, hstage]
      · cases hstep
  | process i =>
      simp only [step] at hstep
      split at hstep
      · next message hstage =>
          split at hstep
          · obtain rfl := Option.some.inj hstep
            refine ⟨_, rfl, ?_, fun _ => rfl⟩
            simp [Client.Moved, Client.behind, Event.client, Event.isLoss, hstage]
          · cases hstep
      · cases hstep
  | answer i =>
      simp only [step] at hstep
      split at hstep
      · next response command rest hstage htodo =>
          split at hstep
          · obtain rfl := Option.some.inj hstep
            refine ⟨_, rfl, ?_, fun _ => rfl⟩
            simp [Client.Moved, Client.behind, Event.client, Event.isLoss, hstage, htodo]
            omega
          · cases hstep
      · cases hstep
  | lose i =>
      simp only [step] at hstep
      split at hstep
      · cases hstep
      · next message hstage =>
          obtain rfl := Option.some.inj hstep
          refine ⟨_, rfl, ?_, fun h => by cases h⟩
          simp [Client.Moved, Client.behind, Event.client, Event.isLoss, hstage]
          omega
      · next response hstage =>
          obtain rfl := Option.some.inj hstep
          refine ⟨_, rfl, ?_, fun h => by cases h⟩
          simp [Client.Moved, Client.behind, Event.client, Event.isLoss, hstage]
  | stale i n =>
      simp only [step] at hstep
      split at hstep
      · next x message hn =>
          obtain rfl := Option.some.inj hstep
          have hlt := (List.getElem?_eq_some_iff.mp hn).1
          exact ⟨_, rfl, moved_eraseIdx hlt, fun h => by cases h⟩
      · cases hstep
  | drop i n =>
      simp only [step, Option.ite_none_right_eq_some] at hstep
      obtain ⟨hlt, hs⟩ := hstep
      obtain rfl := Option.some.inj hs
      exact ⟨_, rfl, moved_eraseIdx hlt, fun h => by cases h⟩

theorem moved_step (hstep : step s e = some s') (i : Fin nclients) :
    (s.clients i).Moved (s'.clients i) (e.works i).toNat (e.loses i).toNat := by
  obtain ⟨c, hclients, hmoved, -⟩ := moved_client hstep
  rw [hclients]
  by_cases hi : e.client = i
  · subst hi
    rw [Function.update_self]
    simpa [Event.works, Event.loses] using hmoved
  · rw [Function.update_of_ne (Ne.symm hi)]
    simp [Event.works, Event.loses, hi, Client.Moved]

theorem moved_of_run {events : List (Event nclients)} (hrun : exec step s events = some s')
    (i : Fin nclients) : (s.clients i).Moved (s'.clients i)
      (events.countP (Event.works i)) (events.countP (Event.loses i)) := by
  induction events generalizing s with
  | nil =>
      obtain rfl := Option.some.inj hrun
      exact rfl
  | cons e events ih =>
      obtain ⟨m, hm, hrest⟩ := exec_cons_eq_some.mp hrun
      have hmoved := (moved_step hm i).trans (ih hrest)
      have hcount (p : Event nclients → Bool) :
          (e :: events).countP p = (p e).toNat + events.countP p := by
        cases h : p e <;> simp [h, Nat.add_comm]
      rw [hcount, hcount]
      exact hmoved

theorem behind_le (h : Inv file commands s) (i : Fin nclients) :
    (s.clients i).behind ≤ 3 * (s.clients i).todo.length := by
  have hlocal := h.clients i
  have hleft {command} (hcommand : (commands i)[(s.clients i).finished]? = some command) :
      1 ≤ (s.clients i).todo.length := by
    obtain ⟨rest, htodo⟩ := hlocal.todo_of_getElem? hcommand
    rw [htodo]
    exact Nat.succ_pos _
  unfold Client.behind
  cases hstage : (s.clients i).stage with
  | ready => exact Nat.zero_le _
  | requested message =>
      obtain ⟨-, -, command, hcommand, -⟩ := hlocal.requested message hstage
      have hone := hleft hcommand
      show 1 ≤ _
      omega
  | answered response =>
      obtain ⟨-, command, hcommand, -⟩ := hlocal.answering response hstage
      have hone := hleft hcommand
      show 2 ≤ _
      omega

section Advance

variable (hcommands : ∀ i, ∀ command ∈ commands i, Sendable command)
  (hfile : Fits (loadText file ∅))
include hcommands hfile

/-- As long as the client has a command it can go on. -/
theorem exists_advance (h : Inv file commands s) (htodo : (s.clients i).todo ≠ []) :
    ∃ e, e.isAdvance = true ∧ e.client = i ∧ (step s e).isSome = true := by
  have hlocal := h.clients i
  obtain ⟨command, rest, htodo⟩ := List.exists_cons_of_ne_nil htodo
  cases hstage : (s.clients i).stage with
  | ready =>
      have hcommand := hlocal.getElem?_of_todo htodo
      obtain ⟨message, hmessage⟩ : ∃ message, request command = some message := by
        cases hcommands i command (List.mem_of_getElem? hcommand) with
        | get => exact ⟨_, request_get _⟩
        | set => exact ⟨_, request_set _⟩
      refine ⟨.send i, rfl, rfl, ?_⟩
      simp only [step, hstage, htodo, hmessage, Option.map_some, Option.isSome_some]
  | requested message =>
      obtain ⟨-, -, hrequest⟩ := hlocal.requested message hstage
      obtain ⟨-, command, -, hresult⟩ := effect_spec (.of_sendable hcommands) h hrequest
      obtain ⟨response, hwritten, -⟩ := List.map_eq_singleton_iff.mp (hresult hfile)
      refine ⟨.process i, rfl, rfl, ?_⟩
      simp only [step, hstage, hwritten, Option.isSome_some]
  | answered response =>
      obtain ⟨-, command', -, hresult⟩ := hlocal.answering response hstage
      have hreturned :
          (conclude command (GJServer.Client.resolveHandler response).result).returned =
            .ok true := by
        rw [hresult hfile, conclude_resultOn]
      refine ⟨.answer i, rfl, rfl, ?_⟩
      simp only [step, hstage, htodo, hreturned, Option.isSome_some]

/-- The client comes to its end alone: in the steps that its commands still take. -/
theorem exists_run_alone {due : ℕ} (h : Inv file commands s)
    (hdue : due + (s.clients i).behind = 3 * (s.clients i).todo.length) :
    ∃ more s', exec step s more = some s' ∧ more.length = due ∧
      (∀ e ∈ more, e.isAdvance = true ∧ e.client = i) ∧ (s'.clients i).todo = [] ∧
      Inv file commands s' := by
  induction due generalizing s with
  | zero =>
      have hbehind : (s.clients i).behind ≤ 2 := by
        unfold Client.behind
        split <;> omega
      refine ⟨[], s, rfl, rfl, fun _ he => (List.not_mem_nil he).elim, ?_, h⟩
      apply List.eq_nil_of_length_eq_zero
      omega
  | succ due ih =>
      have htodo : (s.clients i).todo ≠ [] := by
        intro hnil
        rw [hnil, List.length_nil] at hdue
        omega
      obtain ⟨e, hadvance, rfl, hsome⟩ := exists_advance hcommands hfile h htodo
      obtain ⟨m, hm⟩ := Option.isSome_iff_exists.mp hsome
      obtain ⟨c, hclients, hmoved, habandoned⟩ := moved_client hm
      have hloss : e.isLoss = false := by
        cases e with
        | lose => cases hadvance
        | _ => rfl
      have hself : m.clients e.client = c := by rw [hclients, Function.update_self]
      have hdue' : due + (m.clients e.client).behind =
          3 * (m.clients e.client).todo.length := by
        simp only [Client.Moved, hloss, Bool.not_false, Bool.toNat_true, Bool.toNat_false,
          habandoned hadvance] at hmoved
        rw [hself]
        omega
      obtain ⟨more, s', hmore, hlength, hall, hdone, hinv⟩ :=
        ih (inv_step (.of_sendable hcommands) h hm) hdue'
      exact ⟨e :: more, s', exec_cons_eq_some.mpr ⟨m, hm, hmore⟩,
        congrArg (· + 1) hlength, List.forall_mem_cons.mpr ⟨⟨hadvance, rfl⟩, hall⟩, hdone, hinv⟩

end Advance

/-- Client `i` after a run. -/
structure WaitFree (commands : Fin nclients → List TCommandPair) (events : List (Event nclients))
    (s : State nclients) (i : Fin nclients) : Prop where
  spent : events.countP (Event.works i) + 3 * (s.clients i).todo.length +
      (s.clients i).abandoned.length =
    3 * (commands i).length + 2 * events.countP (Event.loses i) + (s.clients i).behind
  bounded : events.countP (Event.works i) ≤
    3 * (commands i).length + 2 * events.countP (Event.loses i)
  alone : ∃ more s', exec step s more = some s' ∧
    more.length + (s.clients i).behind = 3 * (s.clients i).todo.length ∧
    (∀ e ∈ more, e.isAdvance = true ∧ e.client = i) ∧
    (s'.clients i).results.length = (commands i).length

end GJServer.System.Attempts
