import GJServer.System.Refinement

/-!
What a step of the system does to the commands and to the server: at most one command
takes effect, a client comes to its next command only after this one has, and the server
moves by its own steps.
-/

namespace GJServer.System.Bytes

open Library Exec Linearization Net KVStorage Client Server

variable {nclients : ℕ}

/-- Whose command a step of the server applies to the map. -/
def committer : Event nclients → Option (Fin nclients)
  | .get i | .insert i => some i
  | _ => none

variable {path : String} {file : Str} {commands : Fin nclients → List TCommandPair}
variable {c c' : State nclients} {a : System.State nclients} {i : Fin nclients}
variable {e : Event nclients}

/-! ### The commands -/

theorem op_setLink {link : Link} (h : link.results = (c.links i).results) (j : Fin nclients) :
    (c.setLink i link).op j = c.op j := by
  by_cases hj : j = i
  · subst hj
    simp only [State.op, State.setLink, Function.update_self, h]
  · simp only [State.op, State.setLink, Function.update_of_ne hj]

theorem commit_step (he : committer e = some i) (hstep : step path c e = some c') :
    commits c'.log = commits c.log ++ [c.op i] ∧ ∀ j, c'.op j = c.op j := by
  cases e with
  | get j =>
      obtain rfl := Option.some.inj he
      simp only [step] at hstep
      split at hstep
      · obtain rfl := Option.some.inj hstep
        exact ⟨commits_commit _ _, op_setLink rfl⟩
      · cases hstep
  | insert j =>
      obtain rfl := Option.some.inj he
      rw [step, Option.ite_none_right_eq_some] at hstep
      obtain ⟨server, -, rfl⟩ := Option.map_eq_some_iff.mp hstep.2
      exact ⟨commits_commit _ _, fun _ => rfl⟩
  | _ => cases he

theorem quiet_handle {link : Link} (hstep : handle path c i link = some c')
    (hlink : link.results = (c.links i).results) :
    c'.log = c.log ∧ ∀ j, c'.op j = c.op j := by
  rw [handle] at hstep
  split at hstep
  · obtain rfl := Option.some.inj hstep
    exact ⟨rfl, op_setLink hlink⟩
  split at hstep
  · obtain rfl := Option.some.inj hstep
    exact ⟨rfl, op_setLink hlink⟩
  split at hstep
  · obtain ⟨server, -, rfl⟩ := Option.map_eq_some_iff.mp hstep
    exact ⟨rfl, op_setLink hlink⟩
  · obtain rfl := Option.some.inj hstep
    exact ⟨rfl, op_setLink hlink⟩

theorem results_deliver (link : Link) : (deliver link).results = link.results := by
  rw [deliver]
  split
  · split <;> rfl
  · rfl

/-- The command whose answer a client goes on with has taken effect. -/
theorem committed_of_promise (h : Refines c a) (ha : Inv file commands a)
    (hmain : (c.links i).main = .waiting) {result : Result}
    (hpromise : (c.links i).promise = some result) : c.op i ∈ commits c.log := by
  have hi := h.links i
  have hstage := ha.stage i
  rw [h.log, State.op, hi.results]
  generalize hlink : a.links i = link at hi hstage
  obtain ⟨taken, unread, hsplit, hdelivered, -⟩ := hi.responses
  rw [Link.delivered, if_pos hmain, hpromise] at hdelivered
  obtain ⟨message, rfl, -⟩ := List.map_eq_singleton_iff.mp hdelivered
  cases hstage with
  | responded todo results command response hcommand hsetter hcommit hresponse => exact hcommit
  | _ => cases hsplit

/-- A client comes to its next command only after this one has taken effect. -/
theorem quiet_step (h : Refines c a) (ha : Inv file commands a) (he : committer e = none)
    (hstep : step path c e = some c') :
    commits c'.log = commits c.log ∧ ∀ j, c'.op j = c.op j ∨ c.op j ∈ commits c.log := by
  have hkept {x : State nclients} (hlog : commits x.log = commits c.log)
      (hop : ∀ j, x.op j = c.op j) :
      commits x.log = commits c.log ∧ ∀ j, x.op j = c.op j ∨ c.op j ∈ commits c.log :=
    ⟨hlog, fun j => Or.inl (hop j)⟩
  cases e with
  | send i =>
      simp only [step] at hstep
      split at hstep
      · cases hstep
      · split at hstep
        · obtain rfl := Option.some.inj hstep
          exact hkept (commits_call _ _) (op_setLink rfl)
        · obtain rfl := Option.some.inj hstep
          exact hkept rfl (op_setLink rfl)
      · cases hstep
  | sendUp i k n =>
      obtain ⟨up, -, rfl⟩ := Option.map_eq_some_iff.mp hstep
      exact hkept rfl (op_setLink rfl)
  | readUp i n =>
      rw [step, Option.ite_none_right_eq_some] at hstep
      obtain ⟨r, -, hstep⟩ := Option.bind_eq_some_iff.mp hstep.2
      split at hstep
      · obtain ⟨hlog, hop⟩ := quiet_handle hstep rfl
        exact hkept (congrArg commits hlog) hop
      · obtain rfl := Option.some.inj hstep
        exact hkept rfl (op_setLink rfl)
  | get i => cases he
  | insert i => cases he
  | mark i =>
      rw [step, Option.ite_none_right_eq_some] at hstep
      obtain ⟨server, -, rfl⟩ := Option.map_eq_some_iff.mp hstep.2
      exact hkept rfl (op_setLink rfl)
  | reply i =>
      simp only [step] at hstep
      split at hstep
      · obtain rfl := Option.some.inj hstep
        exact hkept rfl (op_setLink rfl)
      · cases hstep
  | sendDown i k n =>
      obtain ⟨down, -, rfl⟩ := Option.map_eq_some_iff.mp hstep
      exact hkept rfl (op_setLink rfl)
  | readDown i n =>
      rw [step, Option.ite_none_right_eq_some] at hstep
      obtain ⟨r, -, rfl⟩ := Option.map_eq_some_iff.mp hstep.2
      refine hkept rfl (op_setLink ?_)
      split
      · exact results_deliver _
      · rfl
  | resume i =>
      simp only [step] at hstep
      split at hstep
      · cases hstep
      · next command todo result hmain htodo hpromise _ =>
          have hcommitted := committed_of_promise h ha hmain hpromise
          obtain rfl := Option.some.inj hstep
          constructor
          · rw [resume]
            split
            · exact commits_ret _ _
            · rfl
            · rfl
          · intro j
            by_cases hj : j = i
            · exact Or.inr (hj ▸ hcommitted)
            · left
              rw [resume]
              split <;> simp only [State.op, State.setLink, State.record,
                Function.update_of_ne hj]
      · cases hstep
  | sync e =>
      rw [step, Option.ite_none_right_eq_some] at hstep
      obtain ⟨server, -, rfl⟩ := Option.map_eq_some_iff.mp hstep.2
      exact hkept rfl fun _ => rfl

/-! ### The server -/

theorem server_handle {link : Link} (hstep : handle path c i link = some c') :
    c'.server = c.server ∨ ∃ r, Runtime.step path c.server r = some c'.server := by
  rw [handle] at hstep
  split at hstep
  · obtain rfl := Option.some.inj hstep
    exact Or.inl rfl
  split at hstep
  · obtain rfl := Option.some.inj hstep
    exact Or.inl rfl
  split at hstep
  · obtain ⟨server, hserver, rfl⟩ := Option.map_eq_some_iff.mp hstep
    exact Or.inr ⟨_, hserver⟩
  · obtain rfl := Option.some.inj hstep
    exact Or.inl rfl

/-- The system moves the server by its own steps only. -/
theorem server_step (hstep : step path c e = some c') :
    c'.server = c.server ∨ ∃ r, Runtime.step path c.server r = some c'.server := by
  cases e with
  | send i =>
      simp only [step] at hstep
      split at hstep
      · cases hstep
      · split at hstep <;> obtain rfl := Option.some.inj hstep <;> exact Or.inl rfl
      · cases hstep
  | sendUp i k n =>
      obtain ⟨up, -, rfl⟩ := Option.map_eq_some_iff.mp hstep
      exact Or.inl rfl
  | readUp i n =>
      rw [step, Option.ite_none_right_eq_some] at hstep
      obtain ⟨r, -, hstep⟩ := Option.bind_eq_some_iff.mp hstep.2
      split at hstep
      · exact server_handle hstep
      · obtain rfl := Option.some.inj hstep
        exact Or.inl rfl
  | get i =>
      simp only [step] at hstep
      split at hstep
      · obtain rfl := Option.some.inj hstep
        exact Or.inl rfl
      · cases hstep
  | insert i =>
      rw [step, Option.ite_none_right_eq_some] at hstep
      obtain ⟨server, hserver, rfl⟩ := Option.map_eq_some_iff.mp hstep.2
      exact Or.inr ⟨_, hserver⟩
  | mark i =>
      rw [step, Option.ite_none_right_eq_some] at hstep
      obtain ⟨server, hserver, rfl⟩ := Option.map_eq_some_iff.mp hstep.2
      exact Or.inr ⟨_, hserver⟩
  | reply i =>
      simp only [step] at hstep
      split at hstep
      · obtain rfl := Option.some.inj hstep
        exact Or.inl rfl
      · cases hstep
  | sendDown i k n =>
      obtain ⟨down, -, rfl⟩ := Option.map_eq_some_iff.mp hstep
      exact Or.inl rfl
  | readDown i n =>
      rw [step, Option.ite_none_right_eq_some] at hstep
      obtain ⟨r, -, rfl⟩ := Option.map_eq_some_iff.mp hstep.2
      exact Or.inl rfl
  | resume i =>
      simp only [step] at hstep
      split at hstep
      · cases hstep
      · obtain rfl := Option.some.inj hstep
        rw [resume]
        split <;> exact Or.inl rfl
      · cases hstep
  | sync e =>
      rw [step, Option.ite_none_right_eq_some] at hstep
      obtain ⟨server, hserver, rfl⟩ := Option.map_eq_some_iff.mp hstep.2
      exact Or.inr ⟨_, hserver⟩

theorem sync_step {r : Runtime.Event nclients} (hstep : step path c (.sync r) = some c') :
    Runtime.step path c.server r = some c'.server := by
  rw [step, Option.ite_none_right_eq_some] at hstep
  obtain ⟨server, hserver, rfl⟩ := Option.map_eq_some_iff.mp hstep.2
  exact hserver

end GJServer.System.Bytes
