import GJServer.KVStorage.Storage
import GJServer.Library.Exec
import Mathlib.Data.Fintype.Basic

/-!
The threads of a server from `TGJServer::Start` to the end of `TGJServer::Stop`
(`server/gjserver.cpp`, `kvstorage/kvstorage.cpp`, `concurrency/service.h`).

The request threads call `TKVStorage::Set`, which takes the lock for the map and
stores the dirty flag after it has given the lock back. The one thread of the
storage runs `TServiceTimedTask::Exec` over and over, and what it runs is
`TKVStorage::UpdateFile`. `Stop` stops the `io_context` of the server and joins
its threads, and then does the same with the storage: a handler that runs is let
finish, one that is queued is dropped.

File operations meet no fault here, so that a whole replacement of the storage
file is one step (`Swap.exec_faultless`).
-/

namespace GJServer.Server.Runtime

open Library Exec Net KVStorage

inductive Phase
  | loading
  | serving
  | serverStopped
  | serverJoined
  | storageStopped
  | stopped
  deriving DecidableEq

namespace Phase

/-- The request threads have been joined. -/
def joined : Phase → Bool
  | serverJoined | storageStopped | stopped => true
  | _ => false

/-- The `io_context` of the storage has been stopped. -/
def halted : Phase → Bool
  | storageStopped | stopped => true
  | _ => false

end Phase

/-- A request thread: no handler with a write runs on it, the handler has not
taken the lock yet, or it has not stored the flag yet. -/
inductive Setter
  | idle
  | inserting (key value : Str)
  | marking
  deriving DecidableEq

/-- The thread of the storage: the next `Exec` is queued; it waits for its
period to pass; `UpdateFile` is about to read the flag, to copy the map, or to
write the copy; `Exec` is about to post itself; or `run` has returned. -/
inductive Worker
  | queued
  | timing
  | checking
  | copying
  | storing (map : TMap)
  | posting
  | exited
  deriving DecidableEq

/-- `loaded` is the map that `Load` made, `sets` are the calls of `Set` in the
order in which they took the lock, and `snapshot` says how many of them the last
copy of the map had seen. -/
structure State (nthreads : ℕ) where
  phase : Phase
  setters : Fin nthreads → Setter
  worker : Worker
  storage : TKVStorage
  file : Str
  loaded : TMap
  sets : List (Str × Str)
  snapshot : ℕ

inductive Event (nthreads : ℕ)
  | load
  | begin (i : Fin nthreads) (key value : Str)
  | insert (i : Fin nthreads)
  | mark (i : Fin nthreads)
  | dequeue
  | wake
  | check
  | copy
  | store (items : List Item)
  | post
  | exit
  | stopServer
  | joinServer
  | stopStorage
  | joinStorage

variable {nthreads : ℕ}

/-- `TGJServer::Start` has started the thread of the storage and not loaded the
file yet. -/
def start (file : Str) : State nthreads where
  phase := .loading
  setters := fun _ => .idle
  worker := .queued
  storage := .make
  file := file
  loaded := ∅
  sets := []
  snapshot := 0

def State.setSetter (s : State nthreads) (i : Fin nthreads) (setter : Setter) :
    State nthreads :=
  { s with setters := Function.update s.setters i setter }

/-- The map that was copied last, or the loaded one before the first copy. -/
def State.copied (s : State nthreads) : TMap := applySets s.loaded (s.sets.take s.snapshot)

def step (path : String) (s : State nthreads) : Event nthreads → Option (State nthreads)
  | .load =>
      match s.phase, s.storage.load path (some s.file) with
      | .loading, .ok storage =>
          some { s with phase := .serving, storage := storage, loaded := storage.map }
      | _, _ => none
  | .begin i key value =>
      if s.phase = .serving ∧ s.setters i = .idle then
        some (s.setSetter i (.inserting key value))
      else none
  | .insert i =>
      match s.setters i with
      | .inserting key value =>
          some { s.setSetter i .marking with
            storage := s.storage.insertOrAssign key value
            sets := s.sets ++ [(key, value)] }
      | _ => none
  | .mark i =>
      if s.setters i = .marking then
        some { s.setSetter i .idle with storage := s.storage.markDirty }
      else none
  | .dequeue =>
      if s.worker = .queued ∧ s.phase.halted = false then some { s with worker := .timing }
      else none
  | .wake => if s.worker = .timing then some { s with worker := .checking } else none
  | .check =>
      if s.worker = .checking then
        some { s with worker := if s.storage.isMapDirty then .copying else .posting }
      else none
  | .copy =>
      if s.worker = .copying then
        some { s with worker := .storing s.storage.map, snapshot := s.sets.length }
      else none
  | .store items =>
      match s.worker with
      | .storing map =>
          if Iterates items map then
            some { s with worker := .posting, file := storeText items }
          else none
      | _ => none
  | .post => if s.worker = .posting then some { s with worker := .queued } else none
  | .exit =>
      if s.worker = .queued ∧ s.phase.halted = true then some { s with worker := .exited }
      else none
  | .stopServer =>
      if s.phase = .serving then some { s with phase := .serverStopped } else none
  | .joinServer =>
      if s.phase = .serverStopped ∧ ∀ i, s.setters i = .idle then
        some { s with phase := .serverJoined }
      else none
  | .stopStorage =>
      if s.phase = .serverJoined then some { s with phase := .storageStopped } else none
  | .joinStorage =>
      if s.phase = .storageStopped ∧ s.worker = .exited then some { s with phase := .stopped }
      else none

/-- Everything an event can do. -/
inductive Step (s : State nthreads) : Event nthreads → State nthreads → Prop
  | load (hphase : s.phase = .loading) :
      Step s .load { s with
        phase := .serving
        storage := { s.storage with map := loadText s.file s.storage.map }
        loaded := loadText s.file s.storage.map }
  | begin (i key value) (hphase : s.phase = .serving) (hidle : s.setters i = .idle) :
      Step s (.begin i key value) (s.setSetter i (.inserting key value))
  | insert (i key value) (hi : s.setters i = .inserting key value) :
      Step s (.insert i) { s.setSetter i .marking with
        storage := s.storage.insertOrAssign key value
        sets := s.sets ++ [(key, value)] }
  | mark (i) (hi : s.setters i = .marking) :
      Step s (.mark i) { s.setSetter i .idle with storage := s.storage.markDirty }
  | dequeue (hworker : s.worker = .queued) (hphase : s.phase.halted = false) :
      Step s .dequeue { s with worker := .timing }
  | wake (hworker : s.worker = .timing) : Step s .wake { s with worker := .checking }
  | checkClean (hworker : s.worker = .checking) (hclean : s.storage.isMapDirty = false) :
      Step s .check { s with worker := .posting }
  | checkDirty (hworker : s.worker = .checking) (hdirty : s.storage.isMapDirty = true) :
      Step s .check { s with worker := .copying }
  | copy (hworker : s.worker = .copying) :
      Step s .copy { s with worker := .storing s.storage.map, snapshot := s.sets.length }
  | store (items map) (hworker : s.worker = .storing map) (hitems : Iterates items map) :
      Step s (.store items) { s with worker := .posting, file := storeText items }
  | post (hworker : s.worker = .posting) : Step s .post { s with worker := .queued }
  | exit (hworker : s.worker = .queued) (hphase : s.phase.halted = true) :
      Step s .exit { s with worker := .exited }
  | stopServer (hphase : s.phase = .serving) :
      Step s .stopServer { s with phase := .serverStopped }
  | joinServer (hphase : s.phase = .serverStopped) (hidle : ∀ i, s.setters i = .idle) :
      Step s .joinServer { s with phase := .serverJoined }
  | stopStorage (hphase : s.phase = .serverJoined) :
      Step s .stopStorage { s with phase := .storageStopped }
  | joinStorage (hphase : s.phase = .storageStopped) (hworker : s.worker = .exited) :
      Step s .joinStorage { s with phase := .stopped }

theorem step_cases {path : String} {s s' : State nthreads} {e : Event nthreads}
    (h : step path s e = some s') : Step s e s' := by
  cases e with
  | load =>
      simp only [step] at h
      split at h
      · next storage hphase hload =>
          obtain rfl := Option.some.inj h
          obtain rfl := Except.ok.inj hload
          exact .load hphase
      · cases h
  | insert i =>
      simp only [step] at h
      split at h
      · next key value hi =>
          obtain rfl := Option.some.inj h
          exact .insert i key value hi
      · cases h
  | check =>
      simp only [step, Option.ite_none_right_eq_some, Option.some.injEq] at h
      obtain ⟨hworker, rfl⟩ := h
      cases hdirty : s.storage.isMapDirty with
      | true => exact .checkDirty hworker hdirty
      | false => exact .checkClean hworker hdirty
  | store items =>
      simp only [step] at h
      split at h
      · next map hworker =>
          rw [Option.ite_none_right_eq_some, Option.some.injEq] at h
          obtain ⟨hitems, rfl⟩ := h
          exact .store items map hworker hitems
      · cases h
  | begin i key value =>
      simp only [step, Option.ite_none_right_eq_some, Option.some.injEq] at h
      obtain ⟨⟨hphase, hidle⟩, rfl⟩ := h
      exact .begin i key value hphase hidle
  | mark i =>
      simp only [step, Option.ite_none_right_eq_some, Option.some.injEq] at h
      obtain ⟨hi, rfl⟩ := h
      exact .mark i hi
  | dequeue =>
      simp only [step, Option.ite_none_right_eq_some, Option.some.injEq] at h
      obtain ⟨⟨hworker, hphase⟩, rfl⟩ := h
      exact .dequeue hworker hphase
  | wake =>
      simp only [step, Option.ite_none_right_eq_some, Option.some.injEq] at h
      obtain ⟨hworker, rfl⟩ := h
      exact .wake hworker
  | copy =>
      simp only [step, Option.ite_none_right_eq_some, Option.some.injEq] at h
      obtain ⟨hworker, rfl⟩ := h
      exact .copy hworker
  | post =>
      simp only [step, Option.ite_none_right_eq_some, Option.some.injEq] at h
      obtain ⟨hworker, rfl⟩ := h
      exact .post hworker
  | exit =>
      simp only [step, Option.ite_none_right_eq_some, Option.some.injEq] at h
      obtain ⟨⟨hworker, hphase⟩, rfl⟩ := h
      exact .exit hworker hphase
  | stopServer =>
      simp only [step, Option.ite_none_right_eq_some, Option.some.injEq] at h
      obtain ⟨hphase, rfl⟩ := h
      exact .stopServer hphase
  | joinServer =>
      simp only [step, Option.ite_none_right_eq_some, Option.some.injEq] at h
      obtain ⟨⟨hphase, hidle⟩, rfl⟩ := h
      exact .joinServer hphase hidle
  | stopStorage =>
      simp only [step, Option.ite_none_right_eq_some, Option.some.injEq] at h
      obtain ⟨hphase, rfl⟩ := h
      exact .stopStorage hphase
  | joinStorage =>
      simp only [step, Option.ite_none_right_eq_some, Option.some.injEq] at h
      obtain ⟨⟨hphase, hworker⟩, rfl⟩ := h
      exact .joinStorage hphase hworker

/-! ### What holds in every state -/

/-- Without the flag no copy of the map has ever been taken. -/
def Clean (s : State nthreads) : Prop :=
  s.storage.isMapDirty = false →
    s.snapshot = 0 ∧ s.worker ≠ .copying ∧ ∀ map, s.worker ≠ .storing map

/-- Nothing is set before the file has been loaded. -/
def Fresh (s : State nthreads) : Prop :=
  s.phase = .loading → s.sets = [] ∧ s.storage = .make ∧ ∀ i, s.setters i = .idle

/-- Where a set has gone into the map the flag is there, or a thread is about to
store it. -/
def Flagged (s : State nthreads) : Prop :=
  s.sets = [] ∨ s.storage.isMapDirty = true ∨ ∃ i, s.setters i = .marking

structure Joined (s : State nthreads) : Prop where
  idle : s.phase.joined = true → ∀ i, s.setters i = .idle
  exited : s.worker = .exited → s.phase.halted = true

structure History (s : State nthreads) : Prop where
  map : s.storage.map = applySets s.loaded s.sets
  snapshot : s.snapshot ≤ s.sets.length

/-- The file can represent everything that is in the map or about to get there. -/
structure Storable (s : State nthreads) : Prop where
  loaded : s.loaded.Representable
  sets : ∀ pair ∈ s.sets, Representable pair.1 pair.2
  setters : ∀ i key value, s.setters i = .inserting key value → Representable key value

/-- The thread of the storage holds the copy it has taken last, and once it has
written it the file reads back as that copy. -/
structure Stored (s : State nthreads) : Prop where
  storing : ∀ map, s.worker = .storing map → map = s.copied
  file : s.phase ≠ .loading → (∀ map, s.worker ≠ .storing map) → loadText s.file ∅ = s.copied

structure Inv (s : State nthreads) : Prop where
  clean : Clean s
  fresh : Fresh s
  flagged : Flagged s
  joined : Joined s
  history : History s
  storable : Storable s
  stored : Stored s

/-- The arguments of the call of `Set` that the event begins. -/
def Event.args : Event nthreads → Option (Str × Str)
  | .begin _ key value => some (key, value)
  | _ => none

/-- The file can represent what the event is to set. -/
def Event.Storable (e : Event nthreads) : Prop :=
  ∀ pair ∈ e.args, Representable pair.1 pair.2

instance (e : Event nthreads) : Decidable e.Storable :=
  inferInstanceAs (Decidable (∀ pair ∈ e.args, Representable pair.1 pair.2))

theorem inv_start (file : Str) : Inv (start file : State nthreads) where
  clean _ := ⟨rfl, nofun, nofun⟩
  fresh _ := ⟨rfl, rfl, fun _ => rfl⟩
  flagged := Or.inl rfl
  joined := ⟨nofun, nofun⟩
  history := ⟨rfl, Nat.zero_le _⟩
  storable := ⟨representable_empty, by simp [start], nofun⟩
  stored := ⟨nofun, fun h => absurd rfl h⟩

variable {s s' : State nthreads} {e : Event nthreads}

theorem setSetter_of_eq {i j : Fin nthreads} {setter setter' : Setter}
    (h : (s.setSetter i setter).setters j = setter') (hne : setter ≠ setter') :
    s.setters j = setter' := by
  change Function.update s.setters i setter j = setter' at h
  by_cases hij : j = i
  · subst hij
    rw [Function.update_self] at h
    exact absurd h hne
  · rwa [Function.update_of_ne hij] at h

theorem clean_step (h : Clean s) (hstep : Step s e s') : Clean s' := by
  intro hclean
  cases hstep with
  | mark i hi => cases hclean
  | dequeue hworker hphase => exact ⟨(h hclean).1, nofun, nofun⟩
  | wake hworker => exact ⟨(h hclean).1, nofun, nofun⟩
  | checkClean hworker => exact ⟨(h hclean).1, nofun, nofun⟩
  | checkDirty hworker hdirty => cases hdirty.symm.trans hclean
  | copy hworker => exact absurd hworker (h hclean).2.1
  | store items map hworker => exact absurd hworker ((h hclean).2.2 map)
  | post hworker => exact ⟨(h hclean).1, nofun, nofun⟩
  | exit hworker hphase => exact ⟨(h hclean).1, nofun, nofun⟩
  | _ => exact h hclean

theorem fresh_step (h : Fresh s) (hstep : Step s e s') : Fresh s' := by
  intro hphase'
  cases hstep with
  | begin i key value hphase => cases hphase.symm.trans hphase'
  | insert i key value hi => cases ((h hphase').2.2 i).symm.trans hi
  | mark i hi => cases ((h hphase').2.2 i).symm.trans hi
  | load => cases hphase'
  | stopServer => cases hphase'
  | joinServer => cases hphase'
  | stopStorage => cases hphase'
  | joinStorage => cases hphase'
  | _ => exact h hphase'

theorem flagged_step (h : Flagged s) (hstep : Step s e s') : Flagged s' := by
  cases hstep with
  | begin i key value hphase hidle =>
      refine h.imp_right (Or.imp_right ?_)
      rintro ⟨j, hj⟩
      have hji : j ≠ i := by
        rintro rfl
        cases hidle.symm.trans hj
      exact ⟨j, (Function.update_of_ne hji _ _).trans hj⟩
  | insert i key value hi => exact Or.inr (Or.inr ⟨i, Function.update_self ..⟩)
  | mark i hi => exact Or.inr (Or.inl rfl)
  | _ => exact h

/-- While the storage has not been stopped its thread does not leave `run`. -/
theorem Joined.not_exited (h : Joined s) (hphase : s.phase.halted = false) :
    s.worker ≠ .exited := by
  intro hworker
  rw [h.exited hworker] at hphase
  cases hphase

theorem joined_step (h : Joined s) (hstep : Step s e s') : Joined s' := by
  cases hstep with
  | load hphase =>
      have hworker := h.not_exited (by rw [hphase]; rfl)
      exact ⟨nofun, fun hexited => absurd hexited hworker⟩
  | begin i key value hphase hidle =>
      refine ⟨fun hjoined => ?_, h.exited⟩
      change s.phase.joined = true at hjoined
      rw [hphase] at hjoined
      cases hjoined
  | insert i key value hi =>
      refine ⟨fun hjoined => ?_, h.exited⟩
      cases (h.idle hjoined i).symm.trans hi
  | mark i hi =>
      refine ⟨fun hjoined => ?_, h.exited⟩
      cases (h.idle hjoined i).symm.trans hi
  | exit hworker hphase => exact ⟨h.idle, fun _ => hphase⟩
  | stopServer hphase =>
      have hworker := h.not_exited (by rw [hphase]; rfl)
      exact ⟨nofun, fun hexited => absurd hexited hworker⟩
  | joinServer hphase hidle =>
      have hworker := h.not_exited (by rw [hphase]; rfl)
      exact ⟨fun _ => hidle, fun hexited => absurd hexited hworker⟩
  | stopStorage hphase => exact ⟨fun _ => h.idle (by rw [hphase]; rfl), fun _ => rfl⟩
  | joinStorage hphase hworker => exact ⟨fun _ => h.idle (by rw [hphase]; rfl), fun _ => rfl⟩
  | _ => exact ⟨h.idle, nofun⟩

theorem history_step (hfresh : Fresh s) (h : History s) (hstep : Step s e s') : History s' := by
  cases hstep with
  | load hphase =>
      obtain ⟨hsets, -, -⟩ := hfresh hphase
      refine ⟨?_, h.snapshot⟩
      dsimp only
      rw [hsets, applySets_nil]
  | insert i key value hi =>
      refine ⟨?_, h.snapshot.trans (by simp)⟩
      exact (congrArg (Finmap.insert key value) h.map).trans (applySets_concat ..).symm
  | copy hworker => exact ⟨h.map, le_rfl⟩
  | _ => exact ⟨h.map, h.snapshot⟩

theorem storable_step (hfresh : Fresh s) (h : Storable s) (he : e.Storable)
    (hstep : Step s e s') : Storable s' := by
  cases hstep with
  | load hphase =>
      obtain ⟨-, hstorage, -⟩ := hfresh hphase
      refine ⟨?_, h.sets, h.setters⟩
      dsimp only
      rw [hstorage]
      exact representable_loadText _ representable_empty
  | begin i key value hphase hidle =>
      refine ⟨h.loaded, h.sets, fun j k v hj => ?_⟩
      by_cases hji : j = i
      · subst hji
        cases (Function.update_self ..).symm.trans hj
        exact he (key, value) rfl
      · exact h.setters j k v ((Function.update_of_ne hji _ _).symm.trans hj)
  | insert i key value hi =>
      refine ⟨h.loaded, fun pair hpair => ?_, fun j k v hj => ?_⟩
      · rcases List.mem_append.mp hpair with hpair | hpair
        · exact h.sets pair hpair
        · rw [List.mem_singleton.mp hpair]
          exact h.setters i key value hi
      · exact h.setters j k v (setSetter_of_eq hj nofun)
  | mark i hi =>
      exact ⟨h.loaded, h.sets, fun j k v hj => h.setters j k v (setSetter_of_eq hj nofun)⟩
  | _ => exact ⟨h.loaded, h.sets, h.setters⟩

theorem stored_step (h : Inv s) (hstep : Step s e s') : Stored s' := by
  -- a thread that neither held a copy nor takes one leaves everything as it is
  have hkeep {worker : Worker} (hold : ∀ map, s.worker ≠ .storing map)
      (hnew : ∀ map, worker ≠ .storing map) : Stored { s with worker := worker } :=
    ⟨fun map hmap => absurd hmap (hnew map), fun hphase _ => h.stored.file hphase hold⟩
  -- so does the main thread on its way through `Stop`
  have hstop {phase : Phase} (hphase : s.phase ≠ .loading) : Stored { s with phase := phase } :=
    ⟨h.stored.storing, fun _ => h.stored.file hphase⟩
  cases hstep with
  | load hphase =>
      obtain ⟨hsets, hstorage, -⟩ := h.fresh hphase
      have hworker := (h.clean (by rw [hstorage]; rfl)).2.2
      refine ⟨fun map hmap => absurd hmap (hworker map), fun _ _ => ?_⟩
      simp only [State.copied, hsets, hstorage, List.take_nil, applySets_nil, TKVStorage.make]
  | insert i key value hi =>
      -- a new set is behind those that the copy has seen
      have hcopied : applySets s.loaded ((s.sets ++ [(key, value)]).take s.snapshot) =
          s.copied := by
        rw [List.take_append_of_le_length h.history.snapshot, State.copied]
      exact ⟨fun map hmap => (h.stored.storing map hmap).trans hcopied.symm,
        fun hphase hworker => (h.stored.file hphase hworker).trans hcopied.symm⟩
  | copy hworker =>
      refine ⟨fun map hmap => ?_, fun _ hstoring => absurd rfl (hstoring _)⟩
      obtain rfl := Worker.storing.inj hmap
      simp only [State.copied, List.take_length]
      exact h.history.map
  | store items map hworker hitems =>
      refine ⟨nofun, fun _ _ => ?_⟩
      rw [h.stored.storing map hworker] at hitems
      refine loadText_storeText hitems (representable_applySets h.storable.loaded ?_)
      exact fun pair hpair => h.storable.sets pair (List.mem_of_mem_take hpair)
  | dequeue hworker => exact hkeep (by rw [hworker]; nofun) nofun
  | wake hworker => exact hkeep (by rw [hworker]; nofun) nofun
  | checkClean hworker => exact hkeep (by rw [hworker]; nofun) nofun
  | checkDirty hworker => exact hkeep (by rw [hworker]; nofun) nofun
  | post hworker => exact hkeep (by rw [hworker]; nofun) nofun
  | exit hworker => exact hkeep (by rw [hworker]; nofun) nofun
  | begin => exact ⟨h.stored.storing, h.stored.file⟩
  | mark => exact ⟨h.stored.storing, h.stored.file⟩
  | stopServer hphase => exact hstop (by rw [hphase]; nofun)
  | joinServer hphase => exact hstop (by rw [hphase]; nofun)
  | stopStorage hphase => exact hstop (by rw [hphase]; nofun)
  | joinStorage hphase => exact hstop (by rw [hphase]; nofun)

theorem inv_step {path : String} (h : Inv s) (he : e.Storable) (hstep : step path s e = some s') :
    Inv s' := by
  have hcases := step_cases hstep
  exact
    { clean := clean_step h.clean hcases
      fresh := fresh_step h.fresh hcases
      flagged := flagged_step h.flagged hcases
      joined := joined_step h.joined hcases
      history := history_step h.fresh h.history hcases
      storable := storable_step h.fresh h.storable he hcases
      stored := stored_step h hcases }

end GJServer.Server.Runtime
