import GJServer.Server.Runtime

/-!
When the storage file is written again. `Set` stores the flag, `UpdateFile` reads it, and
nobody ever takes it back: behind the first copy of the map every run of `UpdateFile`
replaces the file, whether or not anything has been set in the meantime.
-/

namespace GJServer.Server.Runtime

open Library Exec Net KVStorage

variable {nthreads : ℕ}

/-- A run of `UpdateFile`: whether an earlier one has copied the map, whether it has
touched the files, and whether by then some `Set` had changed the map or stored the flag
after the copy of the last run that did (at any time, when none had). -/
structure Update where
  later : Bool
  touched : Bool
  changed : Bool
  deriving DecidableEq

/-- An observer of the runs of `UpdateFile`. `changed` speaks about the time since the
last copy that has reached the file, and `changedSince` about the time since the last
copy. -/
structure Updates where
  updates : List Update
  later : Bool
  changed : Bool
  changedSince : Bool

namespace Updates

def start : Updates := ⟨[], false, false, false⟩

def note (g : Updates) (e : Event nthreads) (s _ : State nthreads) : Updates :=
  match e with
  | .insert _ | .mark _ => { g with changed := true, changedSince := true }
  | .check =>
      if s.storage.isMapDirty then g
      else { g with updates := g.updates ++ [⟨g.later, false, g.changed⟩] }
  | .copy => { g with changedSince := false }
  | .store _ =>
      { updates := g.updates ++ [⟨g.later, true, g.changed⟩], later := true
        changed := g.changedSince, changedSince := g.changedSince }
  | _ => g

/-- No run of `UpdateFile` touches the files without need. -/
def Needed (g : Updates) : Prop := ∀ u ∈ g.updates, u.touched = true → u.changed = true

/-- Something is set between the copy of one run of `UpdateFile` and the end of the next. -/
def Busy (g : Updates) : Prop := ∀ u ∈ g.updates, u.later = true → u.changed = true

end Updates

/-- The flag is there once a copy has reached the file, and before that only a `Set` can
have stored it. -/
structure Tracked (s : State nthreads) (g : Updates) : Prop where
  flagged : g.later = true → s.storage.isMapDirty = true
  changed : s.storage.isMapDirty = true → g.later = false → g.changed = true
  touched : ∀ u ∈ g.updates, u.later = true → u.touched = true
  first : ∀ u ∈ g.updates, u.touched = true → u.later = false → u.changed = true

variable {s s' : State nthreads} {e : Event nthreads} {g : Updates}

theorem tracked_start (file : Str) : Tracked (start file : State nthreads) .start where
  flagged h := by cases h
  changed h := by cases h
  touched u h := absurd h List.not_mem_nil
  first u h := absurd h List.not_mem_nil

theorem tracked_step (hclean : Clean s) (h : Tracked s g) (hstep : Step s e s') :
    Tracked s' (g.note e s s') := by
  cases hstep with
  | insert i key value hi => exact ⟨h.flagged, fun _ _ => rfl, h.touched, h.first⟩
  | mark i hi => exact ⟨fun _ => rfl, fun _ _ => rfl, h.touched, h.first⟩
  | checkClean hworker hflag =>
      have hlater : g.later = false := by
        by_contra hlater
        cases hflag.symm.trans (h.flagged (by simpa using hlater))
      rw [Updates.note, if_neg (by simp [hflag])]
      refine ⟨h.flagged, h.changed, ?_, ?_⟩
      · refine List.forall_mem_append.mpr ⟨h.touched, List.forall_mem_singleton.mpr fun hu => ?_⟩
        cases hlater.symm.trans hu
      · exact List.forall_mem_append.mpr ⟨h.first, List.forall_mem_singleton.mpr (by simp)⟩
  | checkDirty hworker hdirty =>
      rw [Updates.note, if_pos hdirty]
      exact ⟨h.flagged, h.changed, h.touched, h.first⟩
  | store items map hworker =>
      -- without the flag there would be no copy to write
      have hdirty : s.storage.isMapDirty = true := by
        by_contra hflag
        exact (hclean (by simpa using hflag)).2.2 map hworker
      refine ⟨fun _ => hdirty, fun _ hlater => (by cases hlater), ?_, ?_⟩
      · exact List.forall_mem_append.mpr ⟨h.touched, List.forall_mem_singleton.mpr fun _ => rfl⟩
      · exact List.forall_mem_append.mpr
          ⟨h.first, List.forall_mem_singleton.mpr fun _ => h.changed hdirty⟩
  | _ => exact ⟨h.flagged, h.changed, h.touched, h.first⟩

/-- The first run of `UpdateFile` that touches the files has a reason to, and all that
follow touch them. -/
theorem Tracked.needed_iff (h : Tracked s g) : g.Needed ↔ g.Busy := by
  constructor
  · intro hneeded u hu hlater
    exact hneeded u hu (h.touched u hu hlater)
  · intro hbusy u hu htouched
    cases hlater : u.later with
    | true => exact hbusy u hu hlater
    | false => exact h.first u hu htouched hlater

/-- In every run, the file is written only when it has to be exactly when it would have
to be each time. -/
theorem needed_iff_busy (path : String) (file : Str) (events : List (Event nthreads))
    (s : State nthreads) (hrun : exec (step path) (start file) events = some s) :
    ∃ g, exec (instrument (step path) Updates.note) (start file, .start) events = some (s, g) ∧
      (g.Needed ↔ g.Busy) := by
  have hobserved := instrument_invariant Updates.note (I := fun s g => Clean s ∧ Tracked s g) ?_
    ⟨(inv_start file).clean, tracked_start file⟩ hrun
  · obtain ⟨g, hnoted, -, htracked⟩ := hobserved
    exact ⟨g, hnoted, htracked.needed_iff⟩
  · rintro s g e s' ⟨hclean, htracked⟩ hstep
    have hcases := step_cases hstep
    exact ⟨clean_step hclean hcases, tracked_step hclean htracked hcases⟩

/-- The thread of the storage goes through `UpdateFile` once. -/
def updateFile (items : List Item) : List (Event nthreads) :=
  [.dequeue, .wake, .check, .copy, .store items, .post]

/-- A key is set, and `UpdateFile` runs twice. -/
def setOnce (i : Fin nthreads) : List (Event nthreads) :=
  [.load, .begin i [107] [118], .insert i, .mark i] ++ updateFile [⟨[107], [118]⟩] ++
    updateFile [⟨[107], [118]⟩]

theorem setOnce_writes_twice :
    ∃ s g, exec (instrument (step "kvfile.txt") Updates.note)
        ((start [], .start) : State 4 × Updates) (setOnce 0) = some (s, g) ∧
      g.updates = [⟨false, true, true⟩, ⟨true, true, false⟩] ∧ ¬g.Needed := by
  have hrun : ∃ p, exec (instrument (step "kvfile.txt") Updates.note)
      ((start [], .start) : State 4 × Updates) (setOnce 0) = some p ∧
      p.2.updates = [⟨false, true, true⟩, ⟨true, true, false⟩] := ⟨_, rfl, rfl⟩
  obtain ⟨⟨s, g⟩, hs, hupdates⟩ := hrun
  refine ⟨s, g, hs, hupdates, fun hneeded => ?_⟩
  cases hneeded ⟨true, true, false⟩ (by rw [hupdates]; simp) rfl

/-- A key is set before each of the two runs. -/
def setTwice (i : Fin nthreads) : List (Event nthreads) :=
  [.load, .begin i [107] [118], .insert i, .mark i] ++ updateFile [⟨[107], [118]⟩] ++
    [.begin i [107] [119], .insert i, .mark i] ++ updateFile [⟨[107], [119]⟩]

theorem needed_iff_busy_setTwice :
    ∃ s g, exec (instrument (step "kvfile.txt") Updates.note)
        ((start [], .start) : State 4 × Updates) (setTwice 0) = some (s, g) ∧
      (g.Needed ↔ g.Busy) := by
  have hrun : ∃ s, exec (step "kvfile.txt") (start [] : State 4) (setTwice 0) = some s := ⟨_, rfl⟩
  obtain ⟨s, hs⟩ := hrun
  obtain ⟨g, hnoted, hiff⟩ := needed_iff_busy "kvfile.txt" [] (setTwice 0) s hs
  exact ⟨s, g, hnoted, hiff⟩

end GJServer.Server.Runtime
