import GJServer.Server.Services
import Mathlib.Data.List.TakeWhile

/-!
The members of the services at the end of a server. A service whose threads have been
joined before its members go is safe, and `TServer` and `TKVStorage` are, because
`~TGJServer` stops them first. Nobody stops `TStat`: its own destructor does nothing, and
`~TService` comes after its members.
-/

namespace GJServer.Server.Services

open Library Exec

variable {nthreads : ℕ}

/-- The data members that the handlers of a service use. A request uses the map and the
statistics too; the log is shared and outlives all of them. -/
def uses : Service → List Member
  | .server => [.acceptor, .socket, .handlerResolver, .context .server, .mapMutex, .map,
      .isMapDirty, .statMutex, .globalStatByKey, .globalStat, .framedStat, .frame,
      .frameDuration]
  | .storage => [.mapMutex, .map, .isMapDirty, .file, .context .storage]
  | .stat => [.statMutex, .globalStat, .framedStat, .frame, .frameDuration, .context .stat]
  | .log => []

def Destroyed (s : State nthreads) (member : Member) : Prop := .destroy member ∈ s.executed

/-- The `io_context` has been stopped, and no thread is left in its `run`. -/
structure TornDown (s : State nthreads) (service : Service) : Prop where
  stopped : s.stopped service = true
  joined : .join service ∈ s.executed
  gone : ∀ t : Thread nthreads, t.service = service → (s.threads t).gone = true

/-- No handler of the service runs on a member that has been destroyed. -/
def Guarded (s : State nthreads) (service : Service) : Prop :=
  ∀ member ∈ uses service, Destroyed s member → TornDown s service

def Safe (s : State nthreads) : Prop := ∀ service, Guarded s service

variable {s s' : State nthreads} {e : Event nthreads} {program : List Instr}

/-- An event leaves the program of the main thread alone or takes its next instruction. -/
theorem main_step (hstep : Step s e s') :
    (s'.main = s.main ∧ s'.executed = s.executed) ∨
      ∃ instr, s.main = instr :: s'.main ∧ s'.executed = s.executed ++ [instr] := by
  cases hstep with
  | start service main hmain => exact Or.inr ⟨_, hmain, rfl⟩
  | stop service main hmain => exact Or.inr ⟨_, hmain, rfl⟩
  | join service main hmain => exact Or.inr ⟨_, hmain, rfl⟩
  | destroy member main hmain => exact Or.inr ⟨_, hmain, rfl⟩
  | _ => exact Or.inl ⟨rfl, rfl⟩

/-! ### The order of a program -/

/-- `instr` does not come before the first `first`. -/
def NotBefore (program : List Instr) (first instr : Instr) : Prop :=
  instr ∉ program.takeWhile (· ≠ first)

/-- `instr` does not come after the first `last`. -/
def NotAfter (program : List Instr) (last instr : Instr) : Prop :=
  instr ∉ program.dropWhile (· ≠ last)

instance (program : List Instr) (first instr : Instr) :
    Decidable (NotBefore program first instr) :=
  inferInstanceAs (Decidable (¬_))

instance (program : List Instr) (last instr : Instr) : Decidable (NotAfter program last instr) :=
  inferInstanceAs (Decidable (¬_))

theorem NotBefore.mem {first instr : Instr} {executed main : List Instr}
    (h : NotBefore program first instr) (hprogram : executed ++ main = program)
    (hinstr : instr ∈ executed) : first ∈ executed := by
  by_contra hfirst
  have hall : ∀ i ∈ executed, decide (i ≠ first) = true := by
    intro i hi
    exact decide_eq_true fun heq => hfirst (heq ▸ hi)
  apply h
  rw [← hprogram, List.takeWhile_append_of_pos hall]
  exact List.mem_append_left _ hinstr

theorem NotAfter.not_mem {last instr : Instr} {executed main : List Instr}
    (h : NotAfter program last instr) (hprogram : executed ++ instr :: main = program) :
    last ∉ executed := by
  intro hlast
  apply h
  rw [← hprogram, List.dropWhile_append, if_neg]
  · exact List.mem_append_right _ (by simp)
  · intro hnil
    have hall := List.dropWhile_eq_nil_iff.mp (List.isEmpty_iff.mp hnil) last hlast
    simp at hall

/-- No pool is started after it has been joined. -/
theorem start_notAfter_join (loads : Bool) (service : Service) :
    NotAfter (life loads) (.join service) (.start service) := by
  cases loads <;> cases service <;> decide

/-- The requests and the storage are stopped and joined before a member they use goes. -/
theorem destroy_notBefore_join {loads : Bool} {service : Service} (hservice : service ≠ .stat) :
    ∀ member ∈ uses service, NotBefore (life loads) (.stop service) (.destroy member) ∧
      NotBefore (life loads) (.join service) (.destroy member) := by
  cases service with
  | stat => exact absurd rfl hservice
  | server => cases loads <;> decide
  | storage => cases loads <;> decide
  | log => cases loads <;> decide

/-! ### The main thread and the pools -/

/-- The books of the main thread. -/
structure Ledger (program : List Instr) (s : State nthreads) : Prop where
  program : s.executed ++ s.main = program
  stopped : ∀ service, s.stopped service = true ↔ .stop service ∈ s.executed
  gone : ∀ t : Thread nthreads, .join t.service ∈ s.executed → (s.threads t).gone = true

theorem ledger_construct : Ledger program (construct program : State nthreads) where
  program := rfl
  stopped service := iff_of_false (fun h => by cases h) List.not_mem_nil
  gone t h := absurd h List.not_mem_nil

theorem Ledger.setThread {t : Thread nthreads} {status : Status nthreads}
    (h : Ledger program s) (ht : (s.threads t).gone = false) :
    Ledger program (s.setThread t status) where
  program := h.program
  stopped := h.stopped
  gone u hu := by
    rw [setThread_threads]
    split
    · next hut =>
        subst hut
        cases ht.symm.trans (h.gone u hu)
    · exact h.gone u hu

theorem ledger_step (hstart : ∀ service, NotAfter program (.join service) (.start service))
    (h : Ledger program s) (hstep : Step s e s') : Ledger program s' := by
  have hnext {instr : Instr} {main : List Instr} (hmain : s.main = instr :: main) :
      (s.executed ++ [instr]) ++ main = program := by
    rw [← h.program, hmain, List.append_assoc, List.singleton_append]
  cases hstep with
  | start service main hmain =>
      refine ⟨hnext hmain, fun service' => ?_, fun t ht => ?_⟩
      · simpa using h.stopped service'
      · replace ht : Instr.join t.service ∈ s.executed := by simpa using ht
        have hne : t.service ≠ service := by
          rintro rfl
          exact (hstart _).not_mem (hmain ▸ h.program) ht
        show (if _ then _ else s.threads t).gone = true
        rw [if_neg fun hborn => hne hborn.1]
        exact h.gone t ht
  | stop service main hmain =>
      refine ⟨hnext hmain, fun service' => ?_, fun t ht => h.gone t (by simpa using ht)⟩
      show Function.update s.stopped service true service' = true ↔ _
      rw [Function.update_apply]
      split
      · next heq => simp [heq]
      · next hne => simp [h.stopped service', hne]
  | join service main hmain hgone =>
      refine ⟨hnext hmain, fun service' => ?_, fun t ht => ?_⟩
      · simpa using h.stopped service'
      · rcases List.mem_append.mp ht with ht | ht
        · exact h.gone t ht
        · exact hgone t (Instr.join.inj (List.mem_singleton.mp ht))
  | destroy member main hmain =>
      refine ⟨hnext hmain, fun service' => ?_, fun t ht => h.gone t (by simpa using ht)⟩
      simpa using h.stopped service'
  | begin t errors hidle => exact h.setThread (by rw [hidle]; rfl)
  | finish t hrunning => exact h.setThread (by rw [hrunning]; rfl)
  | exit t hidle => exact h.setThread (by rw [hidle]; rfl)
  | post t error errors hrunning =>
      have hset : Ledger program (s.setThread t (.waiting errors)) :=
        h.setThread (by rw [hrunning]; rfl)
      exact ⟨hset.program, hset.stopped, hset.gone⟩
  | log => exact ⟨h.program, h.stopped, h.gone⟩
  | write poster queue hqueue hidle =>
      have hset : Ledger program (s.setThread .log (.writing poster)) :=
        h.setThread (by rw [hidle]; rfl)
      exact ⟨hset.program, hset.stopped, hset.gone⟩
  | written hwriting => exact h.setThread (by rw [hwriting]; rfl)
  | wake t errors hwriting hwaiting =>
      have hset : Ledger program (s.setThread .log .idle) :=
        h.setThread (by rw [hwriting]; rfl)
      refine hset.setThread ?_
      rw [setThread_threads]
      split
      · rfl
      · rw [hwaiting]
        rfl

theorem executed_grows {events : List (Event nthreads)} (hrun : exec step s events = some s') :
    s.executed <+: s'.executed := by
  refine exec_invariant (I := fun m => s.executed <+: m.executed) ?_ (List.prefix_refl _) hrun
  intro m e m' h hstep
  rcases main_step (step_cases hstep) with ⟨-, hsame⟩ | ⟨instr, -, hnext⟩
  · rwa [hsame]
  · rw [hnext]
    exact h.trans (List.prefix_append ..)

/-- The main thread goes through its program instruction by instruction: every piece of
it is all that has been done at some moment of the run. -/
theorem exists_moment {events : List (Event nthreads)} {pre : List Instr}
    (hrun : exec step s events = some s') (hbegin : s.executed <+: pre)
    (hend : pre <+: s'.executed) :
    ∃ t u m, events = t ++ u ∧ exec step s t = some m ∧ m.executed = pre := by
  induction events generalizing s with
  | nil =>
      obtain rfl := Option.some.inj hrun
      have heq : s.executed = pre := hbegin.eq_of_length_le hend.length_le
      exact ⟨[], [], s, rfl, rfl, heq⟩
  | cons e events ih =>
      obtain ⟨m, hm, hrest⟩ := exec_cons_eq_some.mp hrun
      by_cases heq : s.executed = pre
      · exact ⟨[], e :: events, s, rfl, rfl, heq⟩
      · have hbegin' : m.executed <+: pre := by
          refine List.prefix_of_prefix_length_le (executed_grows hrest) hend ?_
          have hlt : s.executed.length < pre.length := by
            by_contra hle
            exact heq (hbegin.eq_of_length_le (Nat.le_of_not_lt hle))
          rcases main_step (step_cases hm) with ⟨-, hsame⟩ | ⟨instr, -, hnext⟩
          · rw [hsame]
            exact hlt.le
          · rw [hnext, List.length_append]
            exact hlt
        obtain ⟨t, u, m', rfl, ht, hpre⟩ := ih hrest hbegin'
        exact ⟨e :: t, u, m', rfl, exec_cons_eq_some.mpr ⟨m, hm, ht⟩, hpre⟩

theorem guarded_of_ne_stat {loads : Bool} {service : Service} (h : Ledger (life loads) s)
    (hservice : service ≠ .stat) : Guarded s service := by
  intro member hmember hdestroyed
  obtain ⟨hstop, hjoin⟩ := destroy_notBefore_join hservice member hmember
  have hjoined := hjoin.mem h.program hdestroyed
  exact ⟨(h.stopped service).mpr (hstop.mem h.program hdestroyed), hjoined,
    fun t ht => h.gone t (ht ▸ hjoined)⟩

theorem ledger_of_exec {loads : Bool} {events : List (Event nthreads)}
    (hrun : exec step (construct (life loads)) events = some s) : Ledger (life loads) s :=
  exec_invariant (fun _ _ _ h hstep => ledger_step (start_notAfter_join loads) h (step_cases hstep))
    ledger_construct hrun

/-- The members that have gone are used by no service but the statistics that has not been
torn down. -/
theorem guarded_along_life (loads : Bool) {service : Service} (hservice : service ≠ .stat)
    (events : List (Event nthreads)) :
    Along step (Guarded · service) (construct (life loads)) events :=
  .of_invariant (I := Ledger (life loads)) (fun _ h => guarded_of_ne_stat h hservice)
    (fun _ _ _ h hstep => ledger_step (start_notAfter_join loads) h (step_cases hstep))
    ledger_construct events

/-- In every life of a server that is lived to its end, members of `TStat` go while its
thread has not even been told to stop, and the statistics are the only service without
protection. -/
theorem not_safe_along_life (loads : Bool) (events : List (Event nthreads))
    (s : State nthreads) (hrun : exec step (construct (life loads)) events = some s)
    (hend : s.main = []) :
    ¬Along step Safe (construct (life loads)) events ∧
      ∀ service, service ≠ .stat →
        Along step (Guarded · service) (construct (life loads)) events := by
  refine ⟨fun halong => ?_, fun _ hservice => guarded_along_life loads hservice events⟩
  have hledger := ledger_of_exec hrun
  have hexecuted : s.executed = life loads := by
    rw [← hledger.program, hend, List.append_nil]
  have hpre : ((life loads).takeWhile (· ≠ .stop .stat)) <+: s.executed := by
    rw [hexecuted]
    exact List.takeWhile_prefix _
  have hframe : .destroy .frame ∈ (life loads).takeWhile (· ≠ .stop .stat) := by
    cases loads <;> decide
  have hstop : .stop .stat ∉ (life loads).takeWhile (· ≠ .stop .stat) := by
    cases loads <;> decide
  obtain ⟨t, u, m, rfl, ht, hm⟩ := exists_moment hrun (List.nil_prefix ..) hpre
  have hsafe : Safe m := halong.append_left.last ht
  have hdown := hsafe .stat .frame (by decide) (by rwa [Destroyed, hm])
  have hstopped := ((ledger_of_exec ht).stopped .stat).mp hdown.stopped
  rw [hm] at hstopped
  exact hstop hstopped

/-- A report of the statistics begins before `Stop` and is not finished when the
destructor has got to `m_frame`. -/
def reportingToTheEnd : List (Event 4) :=
  .replicate 4 .main ++ [.begin .stat [], .main] ++ exitRequests 4 ++
    [.main, .main, .exit .log, .main, .main, .exit .storage] ++ .replicate 25 .main

/-- The report is finished and the rest of the server is destroyed. -/
def wholeLife : List (Event 4) :=
  reportingToTheEnd ++ .finish .stat :: .replicate 5 .main ++ .exit .stat ::
    .replicate 23 .main

theorem not_safe_along_wholeLife :
    ∃ s, exec step (construct (life true)) wholeLife = some s ∧
      ¬Along step Safe (construct (life true)) wholeLife ∧
      Along step (Guarded · .server) (construct (life true)) wholeLife := by
  have hrun : ∃ s, exec step (construct (life true)) wholeLife = some s ∧ s.main = [] :=
    ⟨_, rfl, rfl⟩
  obtain ⟨s, hs, hend⟩ := hrun
  obtain ⟨hnot, hguarded⟩ := not_safe_along_life true wholeLife s hs hend
  exact ⟨s, hs, hnot, hguarded .server (by decide)⟩

theorem report_on_destroyed_frame :
    ∃ s, exec step (construct (life true)) reportingToTheEnd = some s ∧
      s.threads .stat = .running [] ∧ Destroyed s .frame ∧ ¬Safe s := by
  have hrun : ∃ s, exec step (construct (life true)) reportingToTheEnd = some s ∧
      s.threads .stat = .running [] ∧ s.executed.getLast? = some (.destroy .frame) :=
    ⟨_, rfl, rfl, rfl⟩
  obtain ⟨s, hs, hrunning, hlast⟩ := hrun
  have hframe : Destroyed s .frame := List.mem_of_getLast? hlast
  refine ⟨s, hs, hrunning, hframe, fun hsafe => ?_⟩
  have hgone := (hsafe .stat .frame (by decide) hframe).gone .stat rfl
  rw [hrunning] at hgone
  cases hgone

end GJServer.Server.Services
