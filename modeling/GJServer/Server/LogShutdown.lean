import GJServer.Server.Services

/-!
Reports of errors while a server stops. `TService::Stop` of the request threads stops the
log, which the thread of the storage still uses: a report that is queued at that moment,
or posted later, is never written, the thread that posted it waits for ever, and so does
the main thread, which is to join it.
-/

namespace GJServer.Server.Services

open Library Exec

variable {nthreads : ℕ}

/-- The main thread has still to join the pool of the thread. -/
def ToJoin (s : State nthreads) (t : Thread nthreads) : Prop := .join t.service ∈ s.main

/-- The thread is in `LogSync`. -/
def Waits (s : State nthreads) (t : Thread nthreads) : Prop :=
  ∃ errors, s.threads t = .waiting errors

/-- It waits there for a task in the queue of a log that has been stopped. -/
def Stranded (s : State nthreads) (t : Thread nthreads) : Prop :=
  s.stopped .log = true ∧ Waits s t ∧ some t ∈ s.queue

def NoneStranded (s : State nthreads) : Prop := ∀ t, ToJoin s t → ¬Stranded s t

/-- When the log is stopped, no report of a thread that is still to be joined is queued,
and after that no such thread reports an error. -/
def LoggedInTime (s : State nthreads) : Event nthreads → Prop
  | .main => s.main.head? = some (.stop .log) → ∀ t, ToJoin s t → some t ∉ s.queue
  | .post t => ToJoin s t → s.stopped .log = false
  | _ => True

instance (s : State nthreads) (t : Thread nthreads) : Decidable (ToJoin s t) :=
  inferInstanceAs (Decidable (_ ∈ s.main))

instance (s : State nthreads) : (e : Event nthreads) → Decidable (LoggedInTime s e)
  | .main => inferInstanceAs (Decidable (_ → ∀ t, ToJoin s t → some t ∉ s.queue))
  | .post t => inferInstanceAs (Decidable (ToJoin s t → s.stopped .log = false))
  | .begin _ _ | .finish _ | .exit _ | .log | .write | .written => isTrue trivial

/-- A report that is queued or being written has a thread that waits for it, and this
thread has no other. -/
structure Queued (s : State nthreads) : Prop where
  waiting : ∀ t, some t ∈ s.queue → Waits s t
  writing : ∀ t, s.threads .log = .writing (some t) → some t ∉ s.queue ∧ Waits s t
  once : ∀ t, s.queue.count (some t) ≤ 1

variable {s s' : State nthreads} {e : Event nthreads} {t u : Thread nthreads}

theorem queued_serving (program : List Instr) : Queued (serving program : State nthreads) where
  waiting t h := absurd h List.not_mem_nil
  writing t h := by cases h
  once t := Nat.zero_le 1

theorem not_waits {status : Status nthreads} (h : s.threads t = status)
    (hstatus : ∀ errors, status ≠ .waiting errors) : ¬Waits s t :=
  fun ⟨errors, hwaiting⟩ => hstatus errors (h.symm.trans hwaiting)

/-- A thread that waits still does when the status of another changes. -/
theorem Waits.setThread {status : Status nthreads} (h : Waits s u) (ht : ¬Waits s t) :
    Waits (s.setThread t status) u := by
  obtain ⟨errors, hwaiting⟩ := h
  have hne : u ≠ t := by
    rintro rfl
    exact ht ⟨errors, hwaiting⟩
  exact ⟨errors, (Function.update_of_ne hne ..).trans hwaiting⟩

theorem Queued.setThread {status : Status nthreads} (h : Queued s) (ht : ¬Waits s t)
    (hstatus : ∀ poster, status ≠ .writing poster) : Queued (s.setThread t status) where
  waiting u hu := (h.waiting u hu).setThread ht
  writing u hwriting := by
    rw [setThread_threads] at hwriting
    split at hwriting
    · exact absurd hwriting (hstatus _)
    · exact ⟨(h.writing u hwriting).1, (h.writing u hwriting).2.setThread ht⟩
  once := h.once

theorem queued_start {service : Service} {main : List Instr} (h : Queued s) :
    Queued { s with
      main := main
      executed := s.executed ++ [.start service]
      threads := fun t =>
        if t.service = service ∧ s.threads t = .unborn then .idle else s.threads t } := by
  have hwaits {t : Thread nthreads} (ht : Waits s t) : ∃ errors,
      (if t.service = service ∧ s.threads t = .unborn then .idle else s.threads t) =
        Status.waiting errors := by
    obtain ⟨errors, hwaiting⟩ := ht
    exact ⟨errors, by rw [if_neg (by simp [hwaiting]), hwaiting]⟩
  refine ⟨fun t ht => hwaits (h.waiting t ht), fun t hwriting => ?_, h.once⟩
  change (if _ then _ else s.threads .log) = _ at hwriting
  split at hwriting
  · cases hwriting
  · exact ⟨(h.writing t hwriting).1, hwaits (h.writing t hwriting).2⟩

theorem queued_post {error : String} {errors : List String} (h : Queued s)
    (hrunning : s.threads t = .running (error :: errors)) :
    Queued { s.setThread t (.waiting errors) with queue := s.queue ++ [some t] } := by
  have ht : ¬Waits s t := not_waits hrunning (by simp)
  have hnot : some t ∉ s.queue := fun hqueue => ht (h.waiting t hqueue)
  have hset : Queued (s.setThread t (.waiting errors)) := h.setThread ht (by simp)
  refine ⟨fun u hu => ?_, fun u hwriting => ?_, fun u => ?_⟩
  · rcases List.mem_append.mp hu with hu | hu
    · exact hset.waiting u hu
    · obtain rfl := Option.some.inj (List.mem_singleton.mp hu)
      exact ⟨errors, Function.update_self ..⟩
  · obtain ⟨hqueue, hwaits⟩ := hset.writing u hwriting
    refine ⟨fun hu => ?_, hwaits⟩
    rcases List.mem_append.mp hu with hu | hu
    · exact hqueue hu
    · -- the thread whose report is being written waits, and this one did not
      obtain rfl := Option.some.inj (List.mem_singleton.mp hu)
      change (s.setThread u (.waiting errors)).threads .log = _ at hwriting
      rw [setThread_threads] at hwriting
      split at hwriting
      · cases hwriting
      · exact ht (h.writing u hwriting).2
  · show (s.queue ++ [some t]).count (some u) ≤ 1
    by_cases hut : u = t
    · rw [hut, List.count_append, List.count_eq_zero.mpr hnot]
      simp
    · rw [List.count_append, List.count_eq_zero.mpr (show some u ∉ [some t] by simp [hut])]
      exact h.once u

theorem queued_log (h : Queued s) : Queued { s with queue := s.queue ++ [none] } where
  waiting t ht := h.waiting t (by simpa using ht)
  writing t hwriting := ⟨by simpa using (h.writing t hwriting).1, (h.writing t hwriting).2⟩
  once t := by
    show (s.queue ++ [none]).count (some t) ≤ 1
    rw [List.count_append, List.count_eq_zero.mpr (show some t ∉ [none] by simp)]
    exact h.once t

theorem queued_write {poster : Option (Thread nthreads)} {queue : List (Option (Thread nthreads))}
    (h : Queued s) (hqueue : s.queue = poster :: queue) (hidle : s.threads .log = .idle) :
    Queued { s.setThread .log (.writing poster) with queue := queue } := by
  have hlog : ¬Waits s .log := not_waits hidle (by simp)
  have hmem {u : Thread nthreads} (hu : some u ∈ queue) : some u ∈ s.queue := by
    rw [hqueue]
    exact List.mem_cons_of_mem _ hu
  refine ⟨fun u hu => (h.waiting u (hmem hu)).setThread hlog, fun u hwriting => ?_, fun u => ?_⟩
  · change (s.setThread .log (.writing poster)).threads .log = _ at hwriting
    rw [setThread_threads, if_pos rfl] at hwriting
    obtain rfl := Status.writing.inj hwriting
    have honce := h.once u
    rw [hqueue, List.count_cons_self] at honce
    have hnone : queue.count (some u) = 0 := by omega
    refine ⟨List.count_eq_zero.mp hnone, ?_⟩
    exact (h.waiting u (by simp [hqueue])).setThread hlog
  · have honce := h.once u
    rw [hqueue, List.count_cons] at honce
    show queue.count (some u) ≤ 1
    omega

theorem queued_wake {errors : List String} (h : Queued s)
    (hwriting : s.threads .log = .writing (some t)) (hwaiting : s.threads t = .waiting errors) :
    Queued ((s.setThread .log .idle).setThread t (.running errors)) := by
  have hlog : ¬Waits s .log := not_waits hwriting (by simp)
  have hne : t ≠ .log := by
    rintro rfl
    exact hlog ⟨errors, hwaiting⟩
  have hother {u : Thread nthreads} (hu : some u ∈ s.queue) : u ≠ t := by
    rintro rfl
    exact (h.writing u hwriting).1 hu
  refine ⟨fun u hu => ?_, fun u hwriting' => ?_, h.once⟩
  · obtain ⟨errors', hwaits⟩ := (h.waiting u hu).setThread hlog
    exact ⟨errors', (Function.update_of_ne (hother hu) ..).trans hwaits⟩
  · rw [setThread_threads, if_neg hne.symm, setThread_threads, if_pos rfl] at hwriting'
    cases hwriting'

theorem queued_step (h : Queued s) (hstep : Step s e s') : Queued s' := by
  cases hstep with
  | start service main hmain => exact queued_start h
  | stop => exact ⟨h.waiting, h.writing, h.once⟩
  | join => exact ⟨h.waiting, h.writing, h.once⟩
  | destroy => exact ⟨h.waiting, h.writing, h.once⟩
  | begin t errors hidle => exact h.setThread (not_waits hidle (by simp)) (by simp)
  | finish t hrunning => exact h.setThread (not_waits hrunning (by simp)) (by simp)
  | exit t hidle => exact h.setThread (not_waits hidle (by simp)) (by simp)
  | post t error errors hrunning => exact queued_post h hrunning
  | log => exact queued_log h
  | write poster queue hqueue hidle => exact queued_write h hqueue hidle
  | written hwriting => exact h.setThread (not_waits hwriting (by simp)) (by simp)
  | wake t errors hwriting hwaiting => exact queued_wake h hwriting hwaiting

/-! ### Who is stranded -/

theorem toJoin_of_cons {instr : Instr} {main : List Instr} (hmain : s.main = instr :: main)
    (h : Instr.join t.service ∈ main) : ToJoin s t := by
  rw [ToJoin, hmain]
  exact List.mem_cons_of_mem _ h

/-- A step that leaves the log alone and makes nobody wait strands nobody. -/
theorem NoneStranded.mono (h : NoneStranded s) (hmain : ∀ t, ToJoin s' t → ToJoin s t)
    (hstranded : ∀ t, Stranded s' t → Stranded s t) : NoneStranded s' :=
  fun t ht hs => h t (hmain t ht) (hstranded t hs)

theorem Stranded.of_setThread {status : Status nthreads}
    (hstatus : ∀ errors, status ≠ .waiting errors) (h : Stranded (s.setThread u status) t) :
    Stranded s t := by
  obtain ⟨hstopped, ⟨errors, hwaiting⟩, hqueue⟩ := h
  refine ⟨hstopped, ⟨errors, ?_⟩, hqueue⟩
  rw [setThread_threads] at hwaiting
  split at hwaiting
  · exact absurd hwaiting (hstatus errors)
  · exact hwaiting

theorem noneStranded_step (h : NoneStranded s) (hcond : LoggedInTime s e)
    (hstep : Step s e s') : NoneStranded s' := by
  cases hstep with
  | start service main hmain =>
      refine h.mono (fun t => toJoin_of_cons hmain) ?_
      rintro t ⟨hstopped, ⟨errors, hwaiting⟩, hqueue⟩
      refine ⟨hstopped, ⟨errors, ?_⟩, hqueue⟩
      change (if _ then _ else s.threads t) = _ at hwaiting
      split at hwaiting
      · cases hwaiting
      · exact hwaiting
  | stop service main hmain =>
      by_cases hservice : service = .log
      · subst hservice
        intro t ht hs
        exact hcond (by rw [hmain]; rfl) t (toJoin_of_cons hmain ht) hs.2.2
      · refine h.mono (fun t => toJoin_of_cons hmain) ?_
        rintro t ⟨hstopped, hrest⟩
        exact ⟨(Function.update_of_ne (Ne.symm hservice) ..).symm.trans hstopped, hrest⟩
  | join service main hmain => exact h.mono (fun t => toJoin_of_cons hmain) fun t => id
  | destroy member main hmain => exact h.mono (fun t => toJoin_of_cons hmain) fun t => id
  | begin t errors => exact h.mono (fun t => id) fun u => Stranded.of_setThread (by simp)
  | finish t => exact h.mono (fun t => id) fun u => Stranded.of_setThread (by simp)
  | exit t => exact h.mono (fun t => id) fun u => Stranded.of_setThread (by simp)
  | post t error errors hrunning =>
      rintro u hu ⟨hstopped, ⟨errors', hwaiting⟩, hqueue⟩
      by_cases hut : u = t
      · subst hut
        cases (hcond hu).symm.trans hstopped
      · refine h u hu ⟨hstopped, ⟨errors', ?_⟩, by simpa [hut] using hqueue⟩
        exact (Function.update_of_ne hut ..).symm.trans hwaiting
  | log =>
      refine h.mono (fun t => id) ?_
      rintro t ⟨hstopped, hwaits, hqueue⟩
      exact ⟨hstopped, hwaits, by simpa using hqueue⟩
  | write poster queue hqueue hidle hserving =>
      rintro t ht ⟨hstopped, -⟩
      cases hserving.symm.trans hstopped
  | written hwriting => exact h.mono (fun t => id) fun u => Stranded.of_setThread (by simp)
  | wake t errors =>
      exact h.mono (fun t => id) fun u hs =>
        Stranded.of_setThread (by simp) (Stranded.of_setThread (by simp) hs)

theorem not_noneStranded_step (hqueued : Queued s) (hcond : ¬LoggedInTime s e)
    (hstep : Step s e s') : ¬NoneStranded s' := by
  intro hnone
  cases hstep with
  | start service main hmain => exact hcond fun hlog => by simp [hmain] at hlog
  | join service main hmain => exact hcond fun hlog => by simp [hmain] at hlog
  | destroy member main hmain => exact hcond fun hlog => by simp [hmain] at hlog
  | stop service main hmain =>
      refine hcond fun hlog t ht hqueue => ?_
      obtain rfl : service = .log := by simpa [hmain] using hlog
      refine hnone t ?_ ⟨Function.update_self Service.log true s.stopped,
        hqueued.waiting t hqueue, hqueue⟩
      simpa [ToJoin, hmain] using ht
  | post t error errors hrunning =>
      refine hcond fun ht => ?_
      by_contra hstopped
      rw [Bool.not_eq_false] at hstopped
      exact hnone t ht ⟨hstopped, ⟨errors, Function.update_self ..⟩,
        List.mem_append_right _ (List.mem_singleton.mpr rfl)⟩
  | _ => exact hcond trivial

/-- A stranded thread stays where it is, and so does the main thread. -/
theorem stranded_step (hqueued : Queued s) (ht : ToJoin s t) (h : Stranded s t)
    (hstep : Step s e s') : ToJoin s' t ∧ Stranded s' t := by
  obtain ⟨hstopped, hwaits, hqueue⟩ := h
  obtain ⟨errors, hwaiting⟩ := id hwaits
  have hkeep {instr : Instr} {main : List Instr} (hmain : s.main = instr :: main)
      (hne : .join t.service ≠ instr) : Instr.join t.service ∈ main := by
    rw [ToJoin, hmain] at ht
    exact List.mem_of_ne_of_mem hne ht
  cases hstep with
  | start service main hmain =>
      refine ⟨hkeep hmain (by simp), hstopped, ⟨errors, ?_⟩, hqueue⟩
      show (if _ then _ else s.threads t) = _
      rw [if_neg (by simp [hwaiting]), hwaiting]
  | stop service main hmain =>
      refine ⟨hkeep hmain (by simp), ?_, ⟨errors, hwaiting⟩, hqueue⟩
      show Function.update s.stopped service true .log = true
      rw [Function.update_apply]
      split
      · rfl
      · exact hstopped
  | join service main hmain hgone =>
      refine ⟨hkeep hmain ?_, hstopped, ⟨errors, hwaiting⟩, hqueue⟩
      intro heq
      have hjoined := hgone t (Instr.join.inj heq)
      rw [hwaiting] at hjoined
      cases hjoined
  | destroy member main hmain =>
      exact ⟨hkeep hmain (by simp), hstopped, ⟨errors, hwaiting⟩, hqueue⟩
  | begin u errors hidle =>
      exact ⟨ht, hstopped, hwaits.setThread (not_waits hidle (by simp)), hqueue⟩
  | finish u hrunning =>
      exact ⟨ht, hstopped, hwaits.setThread (not_waits hrunning (by simp)), hqueue⟩
  | exit u hidle => exact ⟨ht, hstopped, hwaits.setThread (not_waits hidle (by simp)), hqueue⟩
  | post u error errors hrunning =>
      exact ⟨ht, hstopped, hwaits.setThread (not_waits hrunning (by simp)),
        List.mem_append_left _ hqueue⟩
  | log => exact ⟨ht, hstopped, ⟨errors, hwaiting⟩, List.mem_append_left _ hqueue⟩
  | write poster queue hposter hidle hserving => cases hserving.symm.trans hstopped
  | written hwriting =>
      exact ⟨ht, hstopped, hwaits.setThread (not_waits hwriting (by simp)), hqueue⟩
  | wake u errors' hwriting hwaiting' =>
      -- the report that the thread of the log has taken is another thread's
      refine ⟨ht, hstopped, ⟨errors, ?_⟩, hqueue⟩
      have hne : t ≠ u := by
        rintro rfl
        exact (hqueued.writing t hwriting).1 hqueue
      have hlog : t ≠ .log := by
        rintro rfl
        cases hwriting.symm.trans hwaiting
      rw [setThread_threads, if_neg hne, setThread_threads, if_neg hlog, hwaiting]

/-- Once a thread that is to be joined is stranded, `Stop` does not return. -/
theorem main_ne_nil_of_stranded {events : List (Event nthreads)} (hqueued : Queued s)
    (ht : ToJoin s t) (h : Stranded s t) (hrun : exec step s events = some s') :
    s'.main ≠ [] := by
  have hend := exec_invariant (I := fun s => Queued s ∧ ToJoin s t ∧ Stranded s t)
    (fun s e s' h hstep => ⟨queued_step h.1 (step_cases hstep),
      stranded_step h.1 h.2.1 h.2.2 (step_cases hstep)⟩) ⟨hqueued, ht, h⟩ hrun
  exact List.ne_nil_of_mem hend.2.1

/-- No thread that `Stop` has still to join is ever stranded in `LogSync`, in any order of
the steps, exactly when the errors are reported in time for the log. -/
theorem noneStranded_along_iff (events : List (Event nthreads)) (s : State nthreads)
    (hrun : exec step (serving TGJServer.stop) events = some s) :
    Along step NoneStranded (serving TGJServer.stop : State nthreads) events ↔
      StepsMeet step LoggedInTime (serving TGJServer.stop) events := by
  refine along_iff_stepsMeet (I := fun s => Queued s ∧ NoneStranded s) (fun s h => h.2) ?_ ?_
    ⟨queued_serving _, ?_⟩ hrun
  · rintro s e s' ⟨hqueued, hnone⟩ hcond hstep
    exact ⟨queued_step hqueued (step_cases hstep),
      noneStranded_step hnone hcond (step_cases hstep)⟩
  · rintro s e s' ⟨hqueued, -⟩ hcond hstep
    exact not_noneStranded_step hqueued hcond (step_cases hstep)
  · rintro t - ⟨hstopped, -⟩
    cases hstopped

/-- The request threads are joined and the log is stopped while nothing is reported; then
a rename fails. -/
def lateReport : List (Event 4) :=
  .main :: exitRequests 4 ++
    [.begin .storage ["KV old file rename failed. Errno: Permission denied",
      "KV file sync failed"], .main, .main, .exit .log, .main, .post .storage, .main]

/-- The same failure, reported while the log still runs. -/
def timelyReport : List (Event 4) :=
  [.begin .storage ["KV old file rename failed. Errno: Permission denied",
      "KV file sync failed"], .post .storage, .write, .written, .post .storage, .main, .write,
    .written, .finish .storage] ++ exitRequests 4 ++
    [.main, .main, .exit .log, .main, .main, .exit .storage, .main, .main, .main, .main, .main]

/-- The thread of the storage waits for ever, and so does the one that called `Stop`. -/
theorem lateReport_strands :
    ∃ s, exec step (serving TGJServer.stop) lateReport = some s ∧ s.threads .log = .exited ∧
      ¬NoneStranded s ∧ ∀ events s', exec step s events = some s' → s'.main ≠ [] := by
  have hrun : ∃ s, exec step (serving TGJServer.stop) lateReport = some s ∧
      s.threads .log = .exited ∧ s.stopped .log = true ∧ s.queue = [some .storage] ∧
      s.threads .storage = .waiting ["KV file sync failed"] ∧
      s.main = [.join .storage, .stop .log, .join .log, .stop .log, .join .log] :=
    ⟨_, rfl, rfl, rfl, rfl, rfl, rfl⟩
  obtain ⟨s, hs, hexited, hstopped, hqueue, hwaiting, hmain⟩ := hrun
  have hqueued : Queued s := exec_invariant
    (fun _ _ _ h hstep => queued_step h (step_cases hstep)) (queued_serving _) hs
  have ht : ToJoin s .storage := by simp [ToJoin, hmain, Thread.service]
  have hstranded : Stranded s .storage := ⟨hstopped, ⟨_, hwaiting⟩, by simp [hqueue]⟩
  exact ⟨s, hs, hexited, fun hnone => hnone _ ht hstranded,
    fun events s' => main_ne_nil_of_stranded hqueued ht hstranded⟩

theorem noneStranded_timelyReport :
    ∃ s, exec step (serving TGJServer.stop) timelyReport = some s ∧ s.main = [] ∧
      (Along step NoneStranded (serving TGJServer.stop) timelyReport ↔
        StepsMeet step LoggedInTime (serving TGJServer.stop) timelyReport) := by
  have hrun : ∃ s, exec step (serving TGJServer.stop) timelyReport = some s ∧ s.main = [] :=
    ⟨_, rfl, rfl⟩
  obtain ⟨s, hs, hmain⟩ := hrun
  exact ⟨s, hs, hmain, noneStranded_along_iff timelyReport s hs⟩

end GJServer.Server.Services
