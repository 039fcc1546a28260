import GJServer.Server.Runtime

/-!
The contents that `m_filepath` has one after the other. Each is a snapshot of the
map: the loaded file with the first calls of `Set` applied, in the order in which
they took the lock, and each shows at least as many of them as the one before. The
flag is stored after the lock has been released, but it is never taken back, so a run
of `UpdateFile` that begins when a call of `Set` has returned does copy the map.
-/

namespace GJServer.Server.Runtime

open Library Exec Net KVStorage

variable {nthreads : ℕ}

/-- A content of `m_filepath`, and how many calls of `Set` it shows. -/
structure Version where
  content : Str
  nsets : ℕ
  deriving DecidableEq

/-- Calls of `Set` are counted from zero in the order in which they take the lock:
`position` is the last call of each thread, `returned` are the calls that have
returned, and `due` those that had when `UpdateFile` began last. -/
structure Watch (nthreads : ℕ) where
  versions : List Version
  position : Fin nthreads → ℕ
  returned : List ℕ
  due : List ℕ

namespace Watch

def start (file : Str) : Watch nthreads where
  versions := [⟨file, 0⟩]
  position := fun _ => 0
  returned := []
  due := []

def note (g : Watch nthreads) (e : Event nthreads) (s s' : State nthreads) :
    Watch nthreads :=
  match e with
  | .insert i => { g with position := Function.update g.position i s.sets.length }
  | .mark i => { g with returned := g.returned ++ [g.position i] }
  | .check => { g with due := g.returned }
  | .store _ => { g with versions := g.versions ++ [⟨s'.file, s'.snapshot⟩] }
  | _ => g

end Watch

/-- The contents are snapshots in the order of the calls of `Set`, and a run of
`UpdateFile` that has come to its end leaves one with every call that had returned
when it began. -/
structure Snapshots (file : Str) (s : State nthreads) (g : Watch nthreads) : Prop where
  complete : ∀ v ∈ g.versions, v.nsets ≤ s.sets.length ∧
    loadText v.content ∅ = applySets (loadText file ∅) (s.sets.take v.nsets)
  ordered : g.versions.Pairwise fun v v' => v.nsets ≤ v'.nsets
  includes : s.worker = .posting → ∃ v, g.versions.getLast? = some v ∧
    v.content = s.file ∧ ∀ n ∈ g.due, n < v.nsets

/-- Where the calls of `Set` are among those that the copies have seen. -/
structure Seen (s : State nthreads) (g : Watch nthreads) : Prop where
  position : ∀ i, s.setters i = .marking → g.position i < s.sets.length
  returned : ∀ n ∈ g.returned, n < s.sets.length
  flagged : g.returned ≠ [] → s.storage.isMapDirty = true
  due : ∀ n ∈ g.due, n < s.sets.length
  copied : s.worker ≠ .copying → ∀ n ∈ g.due, n < s.snapshot

structure Versioned (file : Str) (s : State nthreads) (g : Watch nthreads) : Prop where
  unloaded : s.phase = .loading → s.file = file
  loaded : s.phase ≠ .loading → s.loaded = loadText file ∅
  complete : ∀ v ∈ g.versions, v.nsets ≤ s.snapshot ∧
    loadText v.content ∅ = applySets (loadText file ∅) (s.sets.take v.nsets)
  ordered : g.versions.Pairwise fun v v' => v.nsets ≤ v'.nsets
  current : (∀ map, s.worker ≠ .storing map) →
    g.versions.getLast? = some ⟨s.file, s.snapshot⟩

variable {s s' : State nthreads} {e : Event nthreads} {g : Watch nthreads} {file : Str}

theorem seen_start : Seen (start file : State nthreads) (.start file) where
  position i h := by cases h
  returned n h := absurd h List.not_mem_nil
  flagged h := absurd rfl h
  due n h := absurd h List.not_mem_nil
  copied _ n h := absurd h List.not_mem_nil

theorem versioned_start : Versioned file (start file : State nthreads) (.start file) where
  unloaded _ := rfl
  loaded h := absurd rfl h
  complete := by
    intro v hv
    obtain rfl := List.mem_singleton.mp hv
    exact ⟨le_rfl, rfl⟩
  ordered := List.pairwise_singleton ..
  current _ := rfl

theorem seen_step (h : Seen s g) (hstep : Step s e s') : Seen s' (g.note e s s') := by
  -- a thread that is not about to copy goes on with the last copy
  have hkeep {worker : Worker} (hworker : s.worker ≠ .copying) :
      Seen { s with worker := worker } g :=
    ⟨h.position, h.returned, h.flagged, h.due, fun _ => h.copied hworker⟩
  have hsetter {i : Fin nthreads} {setter : Setter} (hsetter : setter ≠ .marking) (j : Fin nthreads)
      (hj : (s.setSetter i setter).setters j = .marking) : g.position j < s.sets.length :=
    h.position j (setSetter_of_eq hj hsetter)
  cases hstep with
  | insert i key value hi =>
      have hlt {n : ℕ} (hn : n < s.sets.length) : n < (s.sets ++ [(key, value)]).length := by
        rw [List.length_append]
        omega
      refine ⟨fun j hj => ?_, fun n hn => hlt (h.returned n hn), h.flagged,
        fun n hn => hlt (h.due n hn), h.copied⟩
      show Function.update g.position i s.sets.length j < (s.sets ++ [(key, value)]).length
      by_cases hji : j = i
      · rw [hji, Function.update_self, List.length_append]
        exact Nat.lt_add_of_pos_right Nat.zero_lt_one
      · rw [Function.update_of_ne hji]
        exact hlt (h.position j ((Function.update_of_ne hji _ _).symm.trans hj))
  | begin i key value hphase hidle =>
      exact ⟨hsetter (by simp), h.returned, h.flagged, h.due, h.copied⟩
  | mark i hi =>
      refine ⟨hsetter (by simp), fun n hn => ?_, fun _ => rfl, h.due, h.copied⟩
      rcases List.mem_append.mp hn with hn | hn
      · exact h.returned n hn
      · rw [List.mem_singleton.mp hn]
        exact h.position i hi
  | checkClean hworker hclean =>
      -- without the flag no call has returned
      have hnone : g.returned = [] := by
        by_contra hne
        cases hclean.symm.trans (h.flagged hne)
      refine ⟨h.position, h.returned, h.flagged, h.returned, fun _ n hn => ?_⟩
      change n ∈ g.returned at hn
      rw [hnone] at hn
      cases hn
  | checkDirty hworker hdirty =>
      exact ⟨h.position, h.returned, h.flagged, h.returned, fun hne => absurd rfl hne⟩
  | copy hworker => exact ⟨h.position, h.returned, h.flagged, h.due, fun _ => h.due⟩
  | store items map hworker =>
      exact ⟨h.position, h.returned, h.flagged, h.due, fun _ => h.copied (by simp [hworker])⟩
  | dequeue hworker => exact hkeep (by simp [hworker])
  | wake hworker => exact hkeep (by simp [hworker])
  | post hworker => exact hkeep (by simp [hworker])
  | exit hworker => exact hkeep (by simp [hworker])
  | _ => exact ⟨h.position, h.returned, h.flagged, h.due, h.copied⟩

/-- The copy in the hands of the thread and the file it has written, as prefixes of the
calls of `Set`. -/
theorem versioned_step (hinv : Inv s) (hinv' : Inv s') (h : Versioned file s g)
    (hstep : Step s e s') : Versioned file s' (g.note e s s') := by
  -- a thread that holds no copy leaves the last content alone
  have hkeep {worker : Worker} (hworker : ∀ map, s.worker ≠ .storing map) :
      Versioned file { s with worker := worker } g :=
    ⟨h.unloaded, h.loaded, h.complete, h.ordered, fun _ => h.current hworker⟩
  -- so does the main thread on its way through `Stop`
  have hstop {phase : Phase} (hphase : s.phase ≠ .loading) (hphase' : phase ≠ .loading) :
      Versioned file { s with phase := phase } g :=
    ⟨fun hloading => absurd hloading hphase', fun _ => h.loaded hphase, h.complete, h.ordered,
      h.current⟩
  cases hstep with
  | load hphase =>
      obtain ⟨hsets, hstorage, -⟩ := hinv.fresh hphase
      refine ⟨(by simp), fun _ => ?_, h.complete, h.ordered, h.current⟩
      show loadText s.file s.storage.map = loadText file ∅
      rw [h.unloaded hphase, hstorage, TKVStorage.make]
  | insert i key value hi =>
      -- the prefixes that have been shown are prefixes of the longer sequence
      refine ⟨h.unloaded, h.loaded, fun v hv => ?_, h.ordered, h.current⟩
      obtain ⟨hle, hload⟩ := h.complete v hv
      refine ⟨hle, hload.trans ?_⟩
      show _ = applySets _ ((s.sets ++ [(key, value)]).take v.nsets)
      rw [List.take_append_of_le_length (hle.trans hinv.history.snapshot)]
  | copy hworker =>
      refine ⟨h.unloaded, h.loaded, fun v hv => ?_, h.ordered, fun hstoring =>
        absurd rfl (hstoring _)⟩
      obtain ⟨hle, hload⟩ := h.complete v hv
      exact ⟨hle.trans hinv.history.snapshot, hload⟩
  | store items map hworker hitems =>
      have hphase : s.phase ≠ .loading := by
        intro hphase
        obtain ⟨-, hstorage, -⟩ := hinv.fresh hphase
        exact (hinv.clean (by rw [hstorage]; rfl)).2.2 map hworker
      have hload : loadText (storeText items) ∅ =
          applySets (loadText file ∅) (s.sets.take s.snapshot) := by
        rw [← h.loaded hphase]
        exact hinv'.stored.file hphase (by simp)
      refine ⟨fun hloading => absurd hloading hphase, h.loaded, fun v hv => ?_, ?_,
        fun _ => List.getLast?_concat⟩
      · rcases List.mem_append.mp hv with hv | hv
        · exact h.complete v hv
        · rw [List.mem_singleton.mp hv]
          exact ⟨le_rfl, hload⟩
      · refine List.pairwise_append.mpr ⟨h.ordered, List.pairwise_singleton .., ?_⟩
        intro v hv v' hv'
        rw [List.mem_singleton.mp hv']
        exact (h.complete v hv).1
  | checkClean hworker =>
      exact ⟨h.unloaded, h.loaded, h.complete, h.ordered, fun _ => h.current (by simp [hworker])⟩
  | checkDirty hworker =>
      exact ⟨h.unloaded, h.loaded, h.complete, h.ordered, fun _ => h.current (by simp [hworker])⟩
  | dequeue hworker => exact hkeep (by simp [hworker])
  | wake hworker => exact hkeep (by simp [hworker])
  | post hworker => exact hkeep (by simp [hworker])
  | exit hworker => exact hkeep (by simp [hworker])
  | begin => exact ⟨h.unloaded, h.loaded, h.complete, h.ordered, h.current⟩
  | mark => exact ⟨h.unloaded, h.loaded, h.complete, h.ordered, h.current⟩
  | stopServer hphase => exact hstop (by simp [hphase]) (by simp)
  | joinServer hphase => exact hstop (by simp [hphase]) (by simp)
  | stopStorage hphase => exact hstop (by simp [hphase]) (by simp)
  | joinStorage hphase => exact hstop (by simp [hphase]) (by simp)

theorem snapshots_of_versioned (hhistory : History s) (hseen : Seen s g)
    (h : Versioned file s g) : Snapshots file s g where
  complete v hv := ⟨(h.complete v hv).1.trans hhistory.snapshot, (h.complete v hv).2⟩
  ordered := h.ordered
  includes hworker :=
    ⟨⟨s.file, s.snapshot⟩, h.current (by simp [hworker]), rfl, hseen.copied (by simp [hworker])⟩

/-- In every run, whatever the order in which the threads take their steps, the
contents of the file are snapshots of the map in the order of the calls of `Set`. -/
theorem snapshots_ordered (path : String) (file : Str) (events : List (Event nthreads))
    (s : State nthreads) (hevents : ∀ e ∈ events, e.Storable)
    (hrun : exec (step path) (start file) events = some s) :
    ∃ g, exec (instrument (step path) Watch.note) (start file, .start file) events =
      some (s, g) ∧ Snapshots file s g := by
  have hobserved := instrument_invariant_of_labels Watch.note
    (I := fun s g => Inv s ∧ Seen s g ∧ Versioned file s g)
    ?_ ⟨inv_start file, seen_start, versioned_start⟩ hevents hrun
  · obtain ⟨g, hnoted, hinv, hseen, hversioned⟩ := hobserved
    exact ⟨g, hnoted, snapshots_of_versioned hinv.history hseen hversioned⟩
  · rintro s g e s' ⟨hinv, hseen, hversioned⟩ he hstep
    have hcases := step_cases hstep
    have hinv' := inv_step hinv he hstep
    exact ⟨hinv', seen_step hseen hcases, versioned_step hinv hinv' hversioned hcases⟩

/-- A key is set again while the thread of the storage writes its first copy. -/
def setWhileStoring (i j : Fin nthreads) : List (Event nthreads) :=
  [.load, .begin i [107] [118], .insert i, .mark i, .dequeue, .wake, .check, .copy,
    .begin j [107] [119], .insert j, .store [⟨[107], [118]⟩], .mark j, .post, .dequeue, .wake,
    .check, .copy, .store [⟨[107], [119]⟩]]

theorem snapshots_ordered_setWhileStoring :
    ∃ s g, exec (instrument (step "kvfile.txt") Watch.note)
        ((start [], .start []) : State 4 × Watch 4) (setWhileStoring 0 1) = some (s, g) ∧
      g.versions.map Version.nsets = [0, 1, 2] ∧ Snapshots [] s g := by
  have hrun : ∃ p, exec (instrument (step "kvfile.txt") Watch.note)
      ((start [], .start []) : State 4 × Watch 4) (setWhileStoring 0 1) = some p ∧
      p.2.versions.map Version.nsets = [0, 1, 2] := ⟨_, rfl, rfl⟩
  obtain ⟨⟨s, g⟩, hs, hversions⟩ := hrun
  obtain ⟨g', hs', hsnapshots⟩ := snapshots_ordered "kvfile.txt" [] (setWhileStoring 0 1) s
    (by decide) (exec_instrument.mp ⟨g, hs⟩)
  obtain ⟨-, rfl⟩ := Prod.mk.inj (Option.some.inj (hs.symm.trans hs'))
  exact ⟨s, g, hs, hversions, hsnapshots⟩

end GJServer.Server.Runtime
