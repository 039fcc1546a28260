import GJServer.Library.Exec
import Mathlib.Data.Fintype.Basic

/-!
The services of a server, their pools of threads, and the thread that starts, stops and
destroys them (`concurrency/service.h`, `threadpool.cpp`, `logging/log.cpp`,
`server/gjserver.cpp`).

A handler of a service runs on a thread of its pool. It reports an error with `LogSync`,
which posts the report to the `io_context` of the log and waits until the one thread of
the log has written it. An `io_context` that has been stopped lets the handlers that run
finish, and takes none from its queue any more.
-/

namespace GJServer.Server.Services

open Library Exec

inductive Service
  | server
  | storage
  | stat
  | log
  deriving DecidableEq

inductive Thread (nthreads : ℕ)
  | request (i : Fin nthreads)
  | storage
  | stat
  | log
  deriving DecidableEq

instance {nthreads : ℕ} {p : Thread nthreads → Prop} [DecidablePred p] :
    Decidable (∀ t, p t) :=
  decidable_of_iff ((∀ i, p (.request i)) ∧ p .storage ∧ p .stat ∧ p .log)
    ⟨fun h t => match t with
      | .request i => h.1 i
      | .storage => h.2.1
      | .stat => h.2.2.1
      | .log => h.2.2.2,
      fun h => ⟨fun i => h (.request i), h .storage, h .stat, h .log⟩⟩

/-- The service whose pool the thread belongs to. -/
def Thread.service {nthreads : ℕ} : Thread nthreads → Service
  | request _ => .server
  | storage => .storage
  | stat => .stat
  | log => .log

/-- The data members of `TServer`, `TKVStorage`, `TStat` and of their base `TService`. -/
inductive Member
  | acceptor
  | socket
  | handlerResolver
  | mapMutex
  | map
  | isMapDirty
  | file
  | statMutex
  | globalStatByKey
  | globalStat
  | framedStat
  | frame
  | frameDuration
  | context (service : Service)
  | threadpool (service : Service)
  deriving DecidableEq

/-- What the main thread does: `TThreadPool::Start`, `io_context::stop`, joining the
threads of a pool, and the end of a data member. -/
inductive Instr
  | start (service : Service)
  | stop (service : Service)
  | join (service : Service)
  | destroy (member : Member)
  deriving DecidableEq

/-! ### The programs of the main thread -/

def TThreadPool.stop (service : Service) : List Instr := [.join service]

def TLog.stop : List Instr := .stop .log :: TThreadPool.stop .log

def TService.stop (service : Service) : List Instr :=
  .stop service :: TThreadPool.stop service ++ TLog.stop

/-- `~TService`, and then its members: `m_threadpool`, whose destructor joins once more,
and `m_context`. -/
def TService.destroy (service : Service) : List Instr :=
  TService.stop service ++ TThreadPool.stop service ++
    [.destroy (.threadpool service), .destroy (.context service)]

def TKVStorage.stop : List Instr := TService.stop .storage

def TGJServer.stop : List Instr := TService.stop .server ++ TKVStorage.stop ++ TLog.stop

/-- The destructor of `TStat` does nothing, so its members go before `~TService`. -/
def TStat.destroy : List Instr :=
  [.destroy .frameDuration, .destroy .frame, .destroy .framedStat, .destroy .globalStat,
    .destroy .globalStatByKey, .destroy .statMutex] ++ TService.destroy .stat

def TKVStorage.destroy : List Instr :=
  TKVStorage.stop ++
    [.destroy .file, .destroy .isMapDirty, .destroy .map, .destroy .mapMutex] ++
    TStat.destroy ++ TService.destroy .storage

def TServer.destroy : List Instr :=
  [.destroy .handlerResolver, .destroy .socket, .destroy .acceptor] ++
    TService.destroy .server

/-- `~TGJServer`, and then its members from the last to the first. -/
def TGJServer.destroy : List Instr :=
  TGJServer.stop ++ TKVStorage.destroy ++ TServer.destroy

/-- `TKVStorage::Start` up to `Load`. -/
def TKVStorage.start : List Instr := [.start .storage, .start .stat]

/-- A life of a server: when `Load` throws, `Start` does not get to the request threads,
and nobody calls `Stop` before the destructor does. -/
def life (loads : Bool) : List Instr :=
  let started := .start .log :: TKVStorage.start
  if loads then started ++ [.start .server] ++ TGJServer.stop ++ TGJServer.destroy
  else started ++ TGJServer.destroy

/-! ### The threads -/

/-- A thread that has not been started; one that waits in `run` for a handler; one that
runs a handler with the errors it has still to report; one that waits in `LogSync`; the
thread of the log when it writes, with the thread that waits for the report if it is one
of `LogSync`; one whose `run` has returned. -/
inductive Status (nthreads : ℕ)
  | unborn
  | idle
  | running (errors : List String)
  | waiting (errors : List String)
  | writing (poster : Option (Thread nthreads))
  | exited
  deriving DecidableEq

/-- The thread can be joined, or there is none. -/
def Status.gone {nthreads : ℕ} : Status nthreads → Bool
  | unborn | exited => true
  | _ => false

/-- `main` is what the main thread has still to do, `executed` what it has done; `queue`
are the tasks of the log, each with the thread that waits for it. -/
structure State (nthreads : ℕ) where
  main : List Instr
  executed : List Instr
  stopped : Service → Bool
  threads : Thread nthreads → Status nthreads
  queue : List (Option (Thread nthreads))

inductive Event (nthreads : ℕ)
  | main
  | begin (t : Thread nthreads) (errors : List String)
  | post (t : Thread nthreads)
  | finish (t : Thread nthreads)
  | exit (t : Thread nthreads)
  | log
  | write
  | written

/-- The request threads return from `run`, one after the other. -/
def exitRequests (nthreads : ℕ) : List (Event nthreads) :=
  (List.finRange nthreads).map fun i => .exit (.request i)

variable {nthreads : ℕ}

/-- The errors one handler can report: of a session or of the acceptor at most one, of
`UpdateFile` none or what failed and that it failed, of the statistics none. -/
def Thread.reports : Thread nthreads → List String → Bool
  | request _, errors => decide (errors.length ≤ 1)
  | storage, errors =>
      match errors with
      | [] => true
      | [_, last] => last == "KV file sync failed"
      | _ => false
  | stat, errors => errors.isEmpty
  | log, _ => false

/-- Before the constructor: nothing has been started or stopped. -/
def construct (program : List Instr) : State nthreads where
  main := program
  executed := []
  stopped := fun _ => false
  threads := fun _ => .unborn
  queue := []

/-- A server that serves, with what the main thread is to do next. -/
def serving (program : List Instr) : State nthreads :=
  { construct program with threads := fun _ => .idle }

def State.setThread (s : State nthreads) (t : Thread nthreads) (status : Status nthreads) :
    State nthreads :=
  { s with threads := Function.update s.threads t status }

def perform (s : State nthreads) : Instr → Option (State nthreads)
  | .start service =>
      some { s with threads := fun t =>
        if t.service = service ∧ s.threads t = .unborn then .idle else s.threads t }
  | .stop service => some { s with stopped := Function.update s.stopped service true }
  | .join service =>
      if ∀ t : Thread nthreads, t.service = service → (s.threads t).gone = true then some s
      else none
  | .destroy _ => some s

def step (s : State nthreads) : Event nthreads → Option (State nthreads)
  | .main =>
      match s.main with
      | instr :: main =>
          (perform s instr).map fun s' =>
            { s' with main := main, executed := s.executed ++ [instr] }
      | [] => none
  | .begin t errors =>
      if s.threads t = .idle ∧ s.stopped t.service = false ∧ t.reports errors = true then
        some (s.setThread t (.running errors))
      else none
  | .post t =>
      match s.threads t with
      | .running (_ :: errors) =>
          some { s.setThread t (.waiting errors) with queue := s.queue ++ [some t] }
      | _ => none
  | .finish t => if s.threads t = .running [] then some (s.setThread t .idle) else none
  | .exit t =>
      if s.threads t = .idle ∧ s.stopped t.service = true then some (s.setThread t .exited)
      else none
  | .log => some { s with queue := s.queue ++ [none] }
  | .write =>
      match s.queue with
      | poster :: queue =>
          if s.threads .log = .idle ∧ s.stopped .log = false then
            some { s.setThread .log (.writing poster) with queue := queue }
          else none
      | [] => none
  | .written =>
      match s.threads .log with
      | .writing none => some (s.setThread .log .idle)
      | .writing (some t) =>
          match s.threads t with
          | .waiting errors => some ((s.setThread .log .idle).setThread t (.running errors))
          | _ => none
      | _ => none

/-- Everything an event can do. -/
inductive Step (s : State nthreads) : Event nthreads → State nthreads → Prop
  | start (service main) (hmain : s.main = .start service :: main) :
      Step s .main { s with
        main := main
        executed := s.executed ++ [.start service]
        threads := fun t =>
          if t.service = service ∧ s.threads t = .unborn then .idle else s.threads t }
  | stop (service main) (hmain : s.main = .stop service :: main) :
      Step s .main { s with
        main := main
        executed := s.executed ++ [.stop service]
        stopped := Function.update s.stopped service true }
  | join (service main) (hmain : s.main = .join service :: main)
      (hgone : ∀ t : Thread nthreads, t.service = service → (s.threads t).gone = true) :
      Step s .main { s with main := main, executed := s.executed ++ [.join service] }
  | destroy (member main) (hmain : s.main = .destroy member :: main) :
      Step s .main { s with main := main, executed := s.executed ++ [.destroy member] }
  | begin (t errors) (hidle : s.threads t = .idle) (hserving : s.stopped t.service = false)
      (hreports : t.reports errors = true) :
      Step s (.begin t errors) (s.setThread t (.running errors))
  | post (t error errors) (hrunning : s.threads t = .running (error :: errors)) :
      Step s (.post t) { s.setThread t (.waiting errors) with queue := s.queue ++ [some t] }
  | finish (t) (hrunning : s.threads t = .running []) :
      Step s (.finish t) (s.setThread t .idle)
  | exit (t) (hidle : s.threads t = .idle) (hstopped : s.stopped t.service = true) :
      Step s (.exit t) (s.setThread t .exited)
  | log : Step s .log { s with queue := s.queue ++ [none] }
  | write (poster queue) (hqueue : s.queue = poster :: queue) (hidle : s.threads .log = .idle)
      (hserving : s.stopped .log = false) :
      Step s .write { s.setThread .log (.writing poster) with queue := queue }
  | written (hwriting : s.threads .log = .writing none) :
      Step s .written (s.setThread .log .idle)
  | wake (t errors) (hwriting : s.threads .log = .writing (some t))
      (hwaiting : s.threads t = .waiting errors) :
      Step s .written ((s.setThread .log .idle).setThread t (.running errors))

variable {s s' : State nthreads} {e : Event nthreads}

theorem step_cases (h : step s e = some s') : Step s e s' := by
  cases e with
  | main =>
      simp only [step] at h
      split at h
      · next instr main hmain =>
          obtain ⟨m, hm, rfl⟩ := Option.map_eq_some_iff.mp h
          cases instr with
          | start service =>
              obtain rfl := Option.some.inj hm
              exact .start service main hmain
          | stop service =>
              obtain rfl := Option.some.inj hm
              exact .stop service main hmain
          | join service =>
              rw [perform, Option.ite_none_right_eq_some, Option.some.injEq] at hm
              obtain ⟨hgone, rfl⟩ := hm
              exact .join service main hmain hgone
          | destroy member =>
              obtain rfl := Option.some.inj hm
              exact .destroy member main hmain
      · cases h
  | begin t errors =>
      simp only [step, Option.ite_none_right_eq_some, Option.some.injEq] at h
      obtain ⟨⟨hidle, hserving, hreports⟩, rfl⟩ := h
      exact .begin t errors hidle hserving hreports
  | post t =>
      simp only [step] at h
      split at h
      · next error errors hrunning =>
          obtain rfl := Option.some.inj h
          exact .post t error errors hrunning
      · cases h
  | finish t =>
      simp only [step, Option.ite_none_right_eq_some, Option.some.injEq] at h
      obtain ⟨hrunning, rfl⟩ := h
      exact .finish t hrunning
  | exit t =>
      simp only [step, Option.ite_none_right_eq_some, Option.some.injEq] at h
      obtain ⟨⟨hidle, hstopped⟩, rfl⟩ := h
      exact .exit t hidle hstopped
  | log =>
      obtain rfl := Option.some.inj h
      exact .log
  | write =>
      simp only [step] at h
      split at h
      · next poster queue hqueue =>
          rw [Option.ite_none_right_eq_some, Option.some.injEq] at h
          obtain ⟨⟨hidle, hserving⟩, rfl⟩ := h
          exact .write poster queue hqueue hidle hserving
      · cases h
  | written =>
      simp only [step] at h
      split at h
      · next hwriting =>
          obtain rfl := Option.some.inj h
          exact .written hwriting
      · next t hwriting =>
          split at h
          · next errors hwaiting =>
              obtain rfl := Option.some.inj h
              exact .wake t errors hwriting hwaiting
          · cases h
      · cases h

/-- The status of one thread is all that changes. -/
theorem setThread_threads (s : State nthreads) (t u : Thread nthreads)
    (status : Status nthreads) :
    (s.setThread t status).threads u = if u = t then status else s.threads u :=
  Function.update_apply ..

end GJServer.Server.Services
