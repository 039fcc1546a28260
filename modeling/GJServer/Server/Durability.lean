import GJServer.Server.Runtime

/-!
What a run of `UpdateFile` makes durable. The storage file shows a beginning of the calls
of `Set`; no step of the server takes it back behind what it has shown, and when a run of
`UpdateFile` that found the flag has come to its end, it shows every call that had got
into the map when the run began.
-/

namespace GJServer.Server.Runtime

open Library Exec Net KVStorage

variable {nthreads : ℕ} {s s' : State nthreads} {e : Event nthreads} {lo : ℕ}

/-- The file shows the first `n` calls of `Set`, which are `lo` at least. -/
structure ShowsFirst (lo n : ℕ) (s : State nthreads) : Prop where
  serving : s.phase ≠ .loading
  least : lo ≤ n
  copied : n ≤ s.snapshot
  content : loadText s.file ∅ = applySets s.loaded (s.sets.take n)
  latest : (∀ map, s.worker ≠ .storing map) → n = s.snapshot

def Shows (lo : ℕ) (s : State nthreads) : Prop := ∃ n, ShowsFirst lo n s

/-- The thread of the storage is about to copy a map with the first `lo` calls of `Set`, or
about to write it, or has written it. -/
structure Ahead (lo : ℕ) (s : State nthreads) : Prop where
  serving : s.phase ≠ .loading
  sets : lo ≤ s.sets.length
  worker : s.worker = .copying ∨ (∃ map, s.worker = .storing map ∧ lo ≤ s.snapshot) ∨ Shows lo s

theorem serving_step (h : s.phase ≠ .loading) (hstep : Step s e s') : s'.phase ≠ .loading := by
  cases hstep with
  | load => exact nofun
  | stopServer => exact nofun
  | joinServer => exact nofun
  | stopStorage => exact nofun
  | joinStorage => exact nofun
  | _ => exact h

theorem length_sets_step (hstep : Step s e s') : s.sets.length ≤ s'.sets.length := by
  cases hstep with
  | insert => exact (List.prefix_append _ _).length_le
  | _ => exact le_rfl

theorem dirty_step (h : s.storage.isMapDirty = true) (hstep : Step s e s') :
    s'.storage.isMapDirty = true := by
  cases hstep with
  | mark => rfl
  | _ => exact h

/-- The file that has been written now shows the last copy. -/
theorem showsFirst_store (hinv' : Inv s') (hphase : s.phase ≠ .loading) {items : List Item}
    (hlo : lo ≤ s.snapshot) (hstep : Step s (.store items) s') : ShowsFirst lo s'.snapshot s' := by
  cases hstep with
  | store items map' hworker' hitems =>
      exact
        { serving := hphase
          least := hlo
          copied := le_rfl
          content := hinv'.stored.file hphase (by simp)
          latest := fun _ => rfl }

theorem shows_step (hinv : Inv s) (hinv' : Inv s') (h : Shows lo s) (hstep : Step s e s') :
    Shows lo s' := by
  obtain ⟨n, h⟩ := h
  have hserving := serving_step h.serving hstep
  -- a thread that held no copy holds none now
  have hmove {worker : Worker} (hold : ∀ map, s.worker ≠ .storing map) :
      Shows lo { s with worker := worker } :=
    ⟨n, h.serving, h.least, h.copied, h.content, fun _ => h.latest hold⟩
  cases hstep with
  | load hphase => exact absurd hphase h.serving
  | insert i key value hi =>
      refine ⟨n, hserving, h.least, h.copied, h.content.trans ?_, h.latest⟩
      exact congrArg _ (List.take_append_of_le_length (h.copied.trans hinv.history.snapshot)).symm
  | copy hworker =>
      exact ⟨n, hserving, h.least, h.copied.trans hinv.history.snapshot, h.content,
        fun hnone => absurd rfl (hnone _)⟩
  | store items map hworker hitems =>
      exact ⟨_, showsFirst_store hinv' h.serving (h.least.trans h.copied)
        (.store items map hworker hitems)⟩
  | dequeue hworker => exact hmove (by simp [hworker])
  | wake hworker => exact hmove (by simp [hworker])
  | checkClean hworker => exact hmove (by simp [hworker])
  | checkDirty hworker => exact hmove (by simp [hworker])
  | post hworker => exact hmove (by simp [hworker])
  | exit hworker => exact hmove (by simp [hworker])
  | _ => exact ⟨n, hserving, h.least, h.copied, h.content, h.latest⟩

theorem ahead_step (hinv : Inv s) (hinv' : Inv s') (h : Ahead lo s) (hstep : Step s e s') :
    Ahead lo s' := by
  refine ⟨serving_step h.serving hstep, h.sets.trans (length_sets_step hstep), ?_⟩
  rcases h.worker with hcopying | ⟨map, hstoring, hlo⟩ | hshows
  · cases hstep with
    | copy hworker => exact Or.inr (Or.inl ⟨_, rfl, h.sets⟩)
    | dequeue hworker => cases hcopying.symm.trans hworker
    | wake hworker => cases hcopying.symm.trans hworker
    | checkClean hworker => cases hcopying.symm.trans hworker
    | checkDirty hworker => cases hcopying.symm.trans hworker
    | store items map hworker => cases hcopying.symm.trans hworker
    | post hworker => cases hcopying.symm.trans hworker
    | exit hworker => cases hcopying.symm.trans hworker
    | _ => exact Or.inl hcopying
  · cases hstep with
    | store items map' hworker hitems =>
        exact Or.inr (Or.inr ⟨_, showsFirst_store hinv' h.serving hlo
          (.store items map' hworker hitems)⟩)
    | copy hworker => cases hstoring.symm.trans hworker
    | dequeue hworker => cases hstoring.symm.trans hworker
    | wake hworker => cases hstoring.symm.trans hworker
    | checkClean hworker => cases hstoring.symm.trans hworker
    | checkDirty hworker => cases hstoring.symm.trans hworker
    | post hworker => cases hstoring.symm.trans hworker
    | exit hworker => cases hstoring.symm.trans hworker
    | _ => exact Or.inr (Or.inl ⟨map, hstoring, hlo⟩)
  · exact Or.inr (Or.inr (shows_step hinv hinv' hshows hstep))

/-- A run of `UpdateFile` begins and finds the flag. -/
theorem ahead_of_check (hphase : s.phase ≠ .loading) (hdirty : s.storage.isMapDirty = true)
    (hlo : lo ≤ s.sets.length) (hstep : Step s .check s') : Ahead lo s' := by
  cases hstep with
  | checkClean hworker hclean => cases hclean.symm.trans hdirty
  | checkDirty hworker => exact ⟨hphase, hlo, Or.inl rfl⟩

/-- It has come to its end. -/
theorem shows_of_post (h : Ahead lo s) (hstep : Step s .post s') : Shows lo s := by
  cases hstep with
  | post hworker =>
      rcases h.worker with hcopying | ⟨map, hstoring, -⟩ | hshows
      · cases hcopying.symm.trans hworker
      · cases hstoring.symm.trans hworker
      · exact hshows

end GJServer.Server.Runtime
