import GJServer.Server.Runtime

/-!
What a graceful stop leaves in the storage file. The thread of the storage is
let finish what it is at when its `io_context` is stopped, and nothing follows:
the writes reach the file if it still has to copy the map at that moment, and
otherwise only if the copy it has taken last was the map already.
-/

namespace GJServer.Server.Runtime

open Library Exec Net KVStorage

variable {nthreads : ℕ}

/-- The thread is inside `Exec` and has not copied the map yet. -/
def Worker.copyAhead : Worker → Bool
  | timing | checking | copying => true
  | _ => false

/-- Loading the file gives each key the value of its last set. -/
def Persisted (path : String) (s : State nthreads) : Prop :=
  ∀ key value, lastSet s.sets key = some value →
    ∃ map, loadFile path (some s.file) ∅ = .ok map ∧ map.lookup key = some value

/-- When the storage is stopped its thread goes on to copy the map, or the map
has not changed since the thread copied it last. -/
def StoppedInTime (s : State nthreads) (e : Event nthreads) : Prop :=
  e = .stopStorage → s.worker.copyAhead = true ∨ s.storage.map = s.copied

/-- Once the storage has been stopped, what is in the map is in the last copy or
will be in the next. -/
def UpToDate (s : State nthreads) : Prop :=
  s.phase.halted = true → s.worker.copyAhead = true ∨ s.storage.map = s.copied

variable {s s' : State nthreads} {e : Event nthreads}

/-- Without the flag nothing was set, so there is nothing to copy. -/
theorem map_eq_copied_of_clean (h : Inv s) (hjoined : s.phase.joined = true)
    (hclean : s.storage.isMapDirty = false) : s.storage.map = s.copied := by
  have hsets : s.sets = [] := by
    rcases h.flagged with hsets | hdirty | ⟨i, hi⟩
    · exact hsets
    · cases hclean.symm.trans hdirty
    · cases (h.joined.idle hjoined i).symm.trans hi
  rw [h.history.map, State.copied, hsets, List.take_nil]

theorem joined_of_halted (h : s.phase.halted = true) : s.phase.joined = true := by
  cases hphase : s.phase <;> rw [hphase] at h
  all_goals first
    | rfl
    | cases h

/-- Stopping the storage is the only step at which the map can fall behind for
good. -/
theorem upToDate_step (h : Inv s) (hstep : Step s e s') :
    UpToDate s' ↔ UpToDate s ∧ StoppedInTime s e := by
  have hother (he : e ≠ .stopStorage) : StoppedInTime s e := fun h => absurd h he
  cases hstep with
  | stopStorage hphase =>
      have hbefore : UpToDate s := by
        intro hhalted
        rw [hphase] at hhalted
        cases hhalted
      exact ⟨fun h => ⟨hbefore, fun _ => h rfl⟩, fun h _ => h.2 rfl⟩
  | insert i key value hi =>
      -- the request threads have been joined before the storage is stopped
      have hhalted : s.phase.halted = false := by
        by_contra hhalted
        have hidle := h.joined.idle (joined_of_halted (by simpa using hhalted)) i
        cases hidle.symm.trans hi
      simp [UpToDate, State.setSetter, hhalted, hother]
  | load hphase => simp [UpToDate, hphase, Phase.halted, hother]
  | dequeue hworker hphase => simp [UpToDate, hphase, hother]
  | wake hworker => simp [UpToDate, hworker, Worker.copyAhead, hother]
  | checkDirty hworker hdirty => simp [UpToDate, hworker, Worker.copyAhead, hother]
  | checkClean hworker hclean =>
      refine iff_of_true ?_ ⟨fun _ => Or.inl (by rw [hworker]; rfl), hother (by simp)⟩
      have hmap (hhalted : s.phase.halted = true) : s.storage.map = s.copied :=
        map_eq_copied_of_clean h (joined_of_halted hhalted) hclean
      exact fun hhalted => Or.inr (hmap hhalted)
  | copy hworker =>
      refine iff_of_true ?_ ⟨fun _ => Or.inl (by rw [hworker]; rfl), hother (by simp)⟩
      refine fun _ => Or.inr ?_
      simp only [State.copied, List.take_length]
      exact h.history.map
  | store items map hworker =>
      simp only [UpToDate, hworker, Worker.copyAhead, hother (by simp), and_true]
      rfl
  | post hworker =>
      simp only [UpToDate, hworker, Worker.copyAhead, hother (by simp), and_true]
      rfl
  | exit hworker =>
      simp only [UpToDate, hworker, Worker.copyAhead, hother (by simp), and_true]
      rfl
  | begin => exact (and_iff_left (hother (by simp))).symm
  | mark => exact (and_iff_left (hother (by simp))).symm
  | stopServer hphase => simp [UpToDate, hphase, Phase.halted, hother]
  | joinServer hphase => simp [UpToDate, hphase, Phase.halted, hother]
  | joinStorage hphase hworker =>
      simp only [UpToDate, hphase, Phase.halted, hother (by simp), and_true]
      rfl

/-- In a stopped server the file is the last copy. -/
theorem persisted_iff_map_eq {path : String} (h : Inv s) (hstopped : s.phase = .stopped)
    (hworker : s.worker = .exited) : Persisted path s ↔ s.storage.map = s.copied := by
  have hfile : loadText s.file ∅ = s.copied :=
    h.stored.file (by rw [hstopped]; nofun) (by rw [hworker]; nofun)
  have hload (map : TMap) : loadFile path (some s.file) ∅ = .ok map ↔ map = s.copied := by
    rw [loadFile, hfile, Except.ok.injEq, eq_comm]
  simp only [Persisted, hload, exists_eq_left]
  constructor
  · intro hpersisted
    refine Finmap.ext_lookup fun key => ?_
    rw [h.history.map, lookup_applySets]
    cases hlast : lastSet s.sets key with
    | some value => rw [hpersisted key value hlast, Option.some_or]
    | none =>
        have hnone : lastSet (s.sets.take s.snapshot) key = none := by
          rw [lastSet_eq_none_iff] at hlast ⊢
          exact fun pair hpair => hlast pair (List.mem_of_mem_take hpair)
        rw [State.copied, lookup_applySets, hnone]
  · intro hmap key value hlast
    rw [← hmap, h.history.map, lookup_applySets, hlast, Option.some_or]

theorem exited_of_stopped {path : String} {file : Str} {events : List (Event nthreads)}
    (hrun : exec (step path) (start file) events = some s) :
    s.phase = .stopped → s.worker = .exited := by
  refine exec_invariant (I := fun s => s.phase = .stopped → s.worker = .exited) ?_
    (fun h => by cases h) hrun
  intro s e s' h hstep
  have hrunning {worker : Worker} (hworker : s.worker = worker) (hne : worker ≠ .exited) :
      s.phase ≠ .stopped := fun hphase => hne (hworker.symm.trans (h hphase))
  cases step_cases hstep with
  | joinStorage hphase hworker => exact fun _ => hworker
  | exit => exact fun _ => rfl
  | dequeue hworker => exact fun hphase => absurd hphase (hrunning hworker nofun)
  | wake hworker => exact fun hphase => absurd hphase (hrunning hworker nofun)
  | checkClean hworker => exact fun hphase => absurd hphase (hrunning hworker nofun)
  | checkDirty hworker => exact fun hphase => absurd hphase (hrunning hworker nofun)
  | copy hworker => exact fun hphase => absurd hphase (hrunning hworker nofun)
  | store items map hworker => exact fun hphase => absurd hphase (hrunning hworker nofun)
  | post hworker => exact fun hphase => absurd hphase (hrunning hworker nofun)
  | load => nofun
  | stopServer => nofun
  | joinServer => nofun
  | stopStorage => nofun
  | _ => exact h

/-- After a graceful stop the file has the last value of every key exactly when
the storage was stopped in time. -/
theorem persisted_iff (path : String) (file : Str) (events : List (Event nthreads))
    (s : State nthreads) (hevents : ∀ e ∈ events, e.Storable)
    (hrun : exec (step path) (start file) events = some s) (hstopped : s.phase = .stopped) :
    Persisted path s ↔ StepsMeet (step path) StoppedInTime (start file) events := by
  have hinv : Inv s :=
    exec_invariant_of_labels (fun _ _ _ => inv_step) (inv_start file) hevents hrun
  have hworker := exited_of_stopped hrun hstopped
  have hgood := good_iff_stepsMeet (fun _ _ _ => inv_step)
    (fun _ _ _ h hstep => upToDate_step h (step_cases hstep)) (inv_start file) hevents hrun
  have hstart : UpToDate (start file : State nthreads) := nofun
  have hend : UpToDate s ↔ s.storage.map = s.copied := by
    simp [UpToDate, hstopped, hworker, Phase.halted, Worker.copyAhead]
  rw [persisted_iff_map_eq hinv hstopped hworker, ← hend, hgood, and_iff_right hstart]

/-- The storage is stopped while its thread sleeps. -/
def timelyStop : List (Event 4) :=
  [.load, .begin 0 [107] [118], .insert 0, .mark 0, .dequeue, .stopServer, .joinServer,
    .stopStorage, .wake, .check, .copy, .store [⟨[107], [118]⟩], .post, .exit, .joinStorage]

/-- The storage is stopped after its thread found nothing to write and before it
has posted itself again. -/
def lateStop : List (Event 4) :=
  [.load, .dequeue, .wake, .check, .begin 0 [107] [118], .insert 0, .mark 0, .stopServer,
    .joinServer, .stopStorage, .post, .exit, .joinStorage]

theorem lateStop_loses :
    (∀ e ∈ lateStop, e.Storable) ∧ ∃ s, exec (step "kvfile.txt") (start []) lateStop = some s ∧
      s.phase = .stopped ∧ ¬Persisted "kvfile.txt" s := by
  have hrun : ∃ s, exec (step "kvfile.txt") (start []) lateStop = some s ∧
      s.phase = .stopped ∧ s.sets = [([107], [118])] ∧ s.file = [] := ⟨_, rfl, rfl, rfl, rfl⟩
  obtain ⟨s, hs, hstopped, hsets, hfile⟩ := hrun
  refine ⟨by decide, s, hs, hstopped, fun hpersisted => ?_⟩
  obtain ⟨map, hload, hvalue⟩ := hpersisted [107] [118] (by rw [hsets]; rfl)
  rw [hfile] at hload
  obtain rfl := Except.ok.inj hload
  cases hvalue

theorem persisted_iff_timely :
    ∃ s, exec (step "kvfile.txt") (start []) timelyStop = some s ∧
      (Persisted "kvfile.txt" s ↔
        StepsMeet (step "kvfile.txt") StoppedInTime (start []) timelyStop) := by
  have hrun : ∃ s, exec (step "kvfile.txt") (start []) timelyStop = some s ∧
      s.phase = .stopped := ⟨_, rfl, rfl⟩
  obtain ⟨s, hs, hstopped⟩ := hrun
  exact ⟨s, hs, persisted_iff "kvfile.txt" [] timelyStop s (by decide) hs hstopped⟩

end GJServer.Server.Runtime
