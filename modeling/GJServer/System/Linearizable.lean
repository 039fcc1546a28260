import GJServer.System.Stages

/-!
The server is a linearizable map: whatever the clients do at the same time, their
answers are those of one map that runs all commands one after the other.
-/

namespace GJServer.System

open Library Exec Linearization Net KVStorage Client Server

variable {nclients : ℕ}

/-- One order of all commands that keeps the order of each client and real time,
in which a get returns the value of the latest earlier set of its key, or the
loaded one, or the empty string, and at the end of which the map is as it is. -/
structure Linearizes (file : Str) (commands : Fin nclients → List TCommandPair)
    (s : State nclients) (order : List (Op nclients)) : Prop where
  nodup : order.Nodup
  all : ∀ i k, (i, k) ∈ order ↔ k < (commands i).length
  program : ∀ i j k, j < k → k < (commands i).length → Before order (i, j) (i, k)
  realTime : ∀ a b, Before s.log (.ret a) (.call b) → Before order a b
  gets : ∀ pre i k key post, order = pre ++ (i, k) :: post →
    (commands i)[k]? = some ⟨ECMD.READ_REQUEST, key⟩ → (s.links i).results[k]? =
      some (.EOK, ((lastSet (setsOf commands pre) key).or
        ((loadText file ∅).lookup key)).getD [])
  map : s.server.storage.map = applySets (loadText file ∅) (setsOf commands order)

variable {path : String} {file : Str} {commands : Fin nclients → List TCommandPair}
variable {s : State nclients}

/-- When a client has nothing left to do, each of its commands has been answered. -/
theorem committed_of_done (h : Inv file commands s) {i : Fin nclients}
    (hdone : (s.links i).todo = []) {k : ℕ} (hk : k < (commands i).length) :
    (i, k) ∈ commits s.log ∧ ∃ command, (commands i)[k]? = some command ∧
      (s.links i).results[k]? = some (answer file commands (commits s.log) (i, k) command) := by
  have hle : (commands i).length ≤ (s.links i).results.length :=
    List.drop_eq_nil_iff.mp ((h.logged i).todo.symm.trans hdone)
  have hget := List.getElem?_eq_getElem (hk.trans_le hle)
  obtain ⟨hret, command, hcommand, hresult⟩ := (h.logged i).answered k _ hget
  exact ⟨h.orderly.committed hret, command, hcommand, hget.trans (congrArg some hresult)⟩

theorem linearizes_commits (h : Inv file commands s) (hdone : ∀ i, (s.links i).todo = []) :
    Linearizes file commands s (commits s.log) := by
  have hlt {i k} (hk : (i, k) ∈ commits s.log) : k < (commands i).length :=
    ((h.logged i).called k (h.orderly.called hk)).2
  refine ⟨h.orderly.nodup_commits, fun i k => ⟨hlt, fun hk => ?_⟩, fun i j k hjk hk => ?_,
    fun a b hab => ?_, fun pre i k key post horder hcommand => ?_, ?_⟩
  · exact (committed_of_done h (hdone i) hk).1
  · have hmem := (committed_of_done h (hdone i) hk).1
    exact h.orderly.realTime ((h.logged i).program j k hjk (h.orderly.called hmem)) hmem
  · have hb := ((h.logged b.1).called b.2 hab.mem_right).2
    exact h.orderly.realTime hab (committed_of_done h (hdone b.1) hb).1
  · have hk := (List.getElem?_eq_some_iff.mp hcommand).1
    obtain ⟨-, command, hcommand', hresult⟩ := committed_of_done h (hdone i) hk
    obtain rfl := Option.some.inj (hcommand.symm.trans hcommand')
    have hnotin : (i, k) ∉ pre := by
      have hnodup := h.orderly.nodup_commits
      rw [horder] at hnodup
      exact fun hmem => (List.nodup_append.mp hnodup).2.2 _ hmem _ List.mem_cons_self rfl
    rw [hresult, answer, if_pos rfl, horder, prior_append _ _ hnotin, lookup_applySets]
  · rw [h.history.map, h.loaded, h.sets]

/-- Any number of clients, any commands and any interleaving: once all have been
answered, there is an order of the commands that explains every answer and the map. -/
theorem linearizable (path : String) (file : Str) (commands : Fin nclients → List TCommandPair)
    (hcommands : ∀ i, ∀ command ∈ commands i, Sendable command)
    (hfile : ∀ key value, (loadText file ∅).lookup key = some value →
      Message.Small ⟨ECMD.READ_RESPONSE, value⟩)
    (events : List (Event nclients)) (s : State nclients)
    (hrun : exec (step path) (start file commands) events = some s)
    (hdone : ∀ i, (s.links i).todo = []) :
    ∃ order, Linearizes file commands s order :=
  ⟨commits s.log, linearizes_commits
    (exec_invariant (fun _ _ _ => inv_step hcommands hfile) inv_start hrun) hdone⟩

/-- A client sets `k` while another one gets it. -/
def setAndGet : Fin 2 → List TCommandPair
  | 0 => [⟨ECMD.WRITE_REQUEST, [107, 32, 118]⟩]
  | 1 => [⟨ECMD.READ_REQUEST, [107]⟩]

theorem linearizable_setAndGet :
    ∃ s, exec (step "kvfile.txt") (start [] setAndGet)
        [.send 1, .send 0, .handle 0, .handle 1, .insert 0, .get 1, .mark 0, .reply 1, .reply 0,
          .receive 0, .receive 1] = some s ∧
      (s.links 1).results = [(.EOK, [118])] ∧ ∃ order, Linearizes [] setAndGet s order := by
  have hcommands : ∀ i, ∀ command ∈ setAndGet i, Sendable command := by
    refine Fin.forall_fin_two.mpr ⟨?_, ?_⟩
    · exact List.forall_mem_singleton.mpr (Sendable.set (by decide))
    · exact List.forall_mem_singleton.mpr (Sendable.get (by decide))
  have hrun : ∃ s, exec (step "kvfile.txt") (start [] setAndGet)
      [.send 1, .send 0, .handle 0, .handle 1, .insert 0, .get 1, .mark 0, .reply 1, .reply 0,
        .receive 0, .receive 1] = some s ∧ (s.links 1).results = [(.EOK, [118])] ∧
      ∀ i, (s.links i).todo = [] := ⟨_, rfl, rfl, by decide⟩
  obtain ⟨s, hs, hresults, hdone⟩ := hrun
  refine ⟨s, hs, hresults, linearizable "kvfile.txt" [] setAndGet hcommands ?_ _ s hs hdone⟩
  intro key value h
  cases h

end GJServer.System
