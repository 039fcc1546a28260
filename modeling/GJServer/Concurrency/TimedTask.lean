import GJServer.Library.Census
import GJServer.Library.Exec
import GJServer.Utils.Time
import Mathlib.Data.List.Chain

/-!
A timed task of a service (`concurrency/service.h`).

The `io_context` has one queue, and every thread of the pool takes its handlers from
there. `EnqueueTimedTaskTask` and `EnqueueOptionalTimedTaskTask` post the task once; after
that only `Exec` and `ExecOptional` post it again, at their end. They are modelled up to
single accesses to the clock, to `m_execTimeMicroSec` and to the queue, and the other
threads can come in between any two of them.
-/

namespace GJServer.Concurrency

open Library Exec Census Utils

inductive Work
  | other
  | timed
  deriving DecidableEq

/-- What a thread of the pool does: it waits in `run`, runs some other handler, or is in
`Exec` or `ExecOptional` of the task. There it has just come in; has read the clock;
compares with the time of the last execution; sleeps until the period is over, or pauses
for 100 milliseconds; is about to store the time of this execution; executes `m_task`; is
about to post the task again; or has done so and has only to return. -/
inductive Thread
  | idle
  | other
  | entered
  | loading (now : TTimestamp)
  | testing (now execTime : TTimestamp)
  | sleeping (execTime : TTimestamp)
  | pausing
  | storing (now : TTimestamp)
  | executing
  | posting
  | returning
  deriving DecidableEq

/-- In `Exec` or `ExecOptional`. -/
def Thread.running : Thread → Bool
  | idle | other => false
  | _ => true

/-- In `Exec` or `ExecOptional`, and the task has not been posted again. -/
def Thread.carries : Thread → Bool
  | idle | other | returning => false
  | _ => true

/-- A call of `sleep_for` in `Exec`. -/
structure Sleep where
  diff : TDuration
  length : TDuration

/-- `starts` are the times that have been stored, `sleeps` the calls of `sleep_for`. -/
structure State (nthreads : ℕ) where
  queue : List Work
  threads : Fin nthreads → Thread
  clock : TTimestamp
  execTimeMicroSec : UInt64
  starts : List UInt64
  sleeps : List Sleep

/-- The clock moves on; somebody posts another handler; a thread takes the first handler
of the queue; a thread goes on. -/
inductive Event (nthreads : ℕ)
  | tick (now : TTimestamp)
  | post
  | take (i : Fin nthreads)
  | advance (i : Fin nthreads)

variable {nthreads : ℕ}

/-- The task has just been posted; there may be other handlers in the queue before it, and
in the threads. -/
def start (clock : TTimestamp) (waiting : ℕ) (busy : Fin nthreads → Bool) : State nthreads where
  queue := List.replicate waiting .other ++ [.timed]
  threads := fun i => if busy i then .other else .idle
  clock := clock
  execTimeMicroSec := 0
  starts := []
  sleeps := []

namespace State

def setThread (s : State nthreads) (i : Fin nthreads) (t : Thread) : State nthreads :=
  { s with threads := Function.update s.threads i t }

/-- How many instances of the task are in the queue or in a thread that has not posted it
again. -/
def instances (s : State nthreads) : ℕ := s.queue.count .timed + census Thread.carries s.threads

end State

/-- `Exec` and `ExecOptional` of a task with that period; the two differ in what they do
when the period is not over. -/
def advance (period : TDuration) (optional : Bool) (s : State nthreads) (i : Fin nthreads) :
    Thread → Option (State nthreads)
  | .idle => none
  | .other => some (s.setThread i .idle)
  | .entered => some (s.setThread i (.loading s.clock))
  | .loading now =>
      some (s.setThread i (.testing now (TTimestamp.FromMicroseconds s.execTimeMicroSec)))
  | .testing now execTime =>
      let diff := now - execTime
      if diff < period then
        if optional then some (s.setThread i .pausing)
        else some { s.setThread i (.sleeping execTime) with
          sleeps := s.sleeps ++ [⟨diff, period - diff⟩] }
      else some (s.setThread i (.storing now))
  | .sleeping execTime => some (s.setThread i (.testing s.clock execTime))
  | .pausing => some (s.setThread i .posting)
  | .storing now =>
      some { s.setThread i .executing with
        execTimeMicroSec := now.Microseconds, starts := s.starts ++ [now.Microseconds] }
  | .executing => some (s.setThread i .posting)
  | .posting => some { s.setThread i .returning with queue := s.queue ++ [.timed] }
  | .returning => some (s.setThread i .idle)

def Work.begin : Work → Thread
  | other => .other
  | timed => .entered

def step (period : TDuration) (optional : Bool) (s : State nthreads) :
    Event nthreads → Option (State nthreads)
  | .tick now => if s.clock ≤ now then some { s with clock := now } else none
  | .post => some { s with queue := s.queue ++ [.other] }
  | .take i =>
      match s.queue with
      | work :: queue =>
          if s.threads i = .idle then some { s.setThread i work.begin with queue := queue }
          else none
      | [] => none
  | .advance i => advance period optional s i (s.threads i)

/-! ### What a run keeps -/

/-- The clock has reached a number of microseconds. -/
def Reached (microseconds : UInt64) (now : TTimestamp) : Prop :=
  (microseconds.toNat * 1000 : ℤ) ≤ now.value.toInt

/-- What the readings of a thread are worth: they are not older than the last execution,
and what is about to be stored is a period later. -/
def Thread.Sound (period : TDuration) (s : State nthreads) : Thread → Prop
  | .loading now => Reached s.execTimeMicroSec now ∧ now ≤ s.clock
  | .testing now execTime =>
      execTime = TTimestamp.FromMicroseconds s.execTimeMicroSec ∧
        Reached s.execTimeMicroSec now ∧ now ≤ s.clock
  | .sleeping execTime => execTime = TTimestamp.FromMicroseconds s.execTimeMicroSec
  | .storing now =>
      Reached s.execTimeMicroSec now ∧ now ≤ s.clock ∧
        s.execTimeMicroSec.toNat + period.microseconds.toNat ≤ now.Microseconds.toNat
  | _ => True

/-- The length of a sleep is what is left of the period, and something is left. -/
structure Sleep.Proper (period : TDuration) (sleep : Sleep) : Prop where
  left : sleep.diff.microseconds.toNat + sleep.length.microseconds.toNat =
    period.microseconds.toNat
  pos : 1 ≤ sleep.length.microseconds.toNat
  le : sleep.length.microseconds.toNat ≤ period.microseconds.toNat

structure Inv (period : TDuration) (s : State nthreads) : Prop where
  once : s.instances = 1
  reached : Reached s.execTimeMicroSec s.clock
  sound : ∀ i, (s.threads i).Sound period s
  last : ∀ start ∈ s.starts.getLast?, start = s.execTimeMicroSec
  spaced : s.starts.IsChain fun start next =>
    start.toNat + period.microseconds.toNat ≤ next.toNat
  sleeps : ∀ sleep ∈ s.sleeps, sleep.Proper period

variable {period : TDuration} {optional : Bool} {s s' : State nthreads} {e : Event nthreads}
variable {i : Fin nthreads} {t : Thread}

theorem Thread.Sound.of_not_carries (h : t.carries = false) : t.Sound period s := by
  cases t with
  | loading | testing | sleeping | storing => cases h
  | _ => trivial

theorem Reached.mono {microseconds : UInt64} {now now' : TTimestamp}
    (h : Reached microseconds now) (hnow : now ≤ now') : Reached microseconds now' :=
  Int.le_trans h (TTimestamp.le_def.mp hnow)

theorem Thread.Sound.tick {now : TTimestamp} (h : t.Sound period s) (hnow : s.clock ≤ now) :
    t.Sound period { s with clock := now } := by
  cases t with
  | loading => exact ⟨h.1, TTimestamp.le_trans h.2 hnow⟩
  | testing => exact ⟨h.1, h.2.1, TTimestamp.le_trans h.2.2 hnow⟩
  | sleeping => exact h
  | storing => exact ⟨h.1, TTimestamp.le_trans h.2.1 hnow, h.2.2⟩
  | _ => trivial

/-- A thread that carries the task is the only one. -/
theorem Inv.alone (h : Inv period s) (hi : (s.threads i).carries = true) {j : Fin nthreads}
    (hj : j ≠ i) : (s.threads j).carries = false := by
  by_contra hcarries
  have hle : census Thread.carries s.threads ≤ 1 := by
    have honce := h.once
    rw [State.instances] at honce
    omega
  exact hj (eq_of_census_le_one hle (Bool.eq_true_of_not_eq_false hcarries) hi)

/-- An instance can move between the queue and a thread. -/
theorem Inv.move (h : Inv period s) {queue : List Work}
    (hcount : queue.count .timed + t.carries.toNat =
      s.queue.count .timed + (s.threads i).carries.toNat)
    (hsound : t.Sound period s) : Inv period { s.setThread i t with queue := queue } where
  once := by
    have hcensus := census_update Thread.carries s.threads i t
    have honce := h.once
    rw [State.instances] at honce
    show queue.count .timed + census Thread.carries (Function.update s.threads i t) = 1
    omega
  reached := h.reached
  sound := (Function.forall_update_iff s.threads fun _ t => t.Sound period _).mpr
    ⟨hsound, fun j _ => h.sound j⟩
  last := h.last
  spaced := h.spaced
  sleeps := h.sleeps

/-- The thread goes on with the task, or with something else. -/
theorem Inv.setThread (h : Inv period s) {old : Thread} (hi : s.threads i = old)
    (hcarries : old.carries = t.carries) (hsound : t.Sound period s) :
    Inv period (s.setThread i t) :=
  h.move (by rw [hi, hcarries]) hsound

/-- The comparison with the period, in whole microseconds of the clock. -/
theorem diff_toNat {now : TTimestamp} {microseconds : UInt64} (h : Reached microseconds now) :
    (now - TTimestamp.FromMicroseconds microseconds).microseconds.toNat + microseconds.toNat =
      now.Microseconds.toNat := by
  have hexec := TTimestamp.FromMicroseconds_toInt h
  have hle : TTimestamp.FromMicroseconds microseconds ≤ now := by
    rw [TTimestamp.le_def, hexec]
    exact h
  have hdiff := TTimestamp.sub_toNat hle
  have hnow : (now.Microseconds.toNat : ℤ) = now.value.toInt / 1000 := by
    apply TTimestamp.Microseconds_toNat
    rw [Reached] at h
    omega
  rw [hexec] at hdiff
  omega

theorem sleep_proper {diff : TDuration} (h : diff < period) :
    Sleep.Proper period ⟨diff, period - diff⟩ := by
  have hlength := TDuration.sub_toNat h
  have hlt := UInt64.lt_iff_toNat_lt.mp h
  constructor
  · show diff.microseconds.toNat + (period - diff).microseconds.toNat = _
    omega
  · show 1 ≤ (period - diff).microseconds.toNat
    omega
  · show (period - diff).microseconds.toNat ≤ _
    omega

/-- The time of an execution is stored: nobody else has an instance whose readings could
become older than the last execution. -/
theorem Inv.store {now : TTimestamp} (h : Inv period s) (hi : s.threads i = .storing now) :
    Inv period { s.setThread i .executing with
      execTimeMicroSec := now.Microseconds, starts := s.starts ++ [now.Microseconds] } := by
  have hcarries : (s.threads i).carries = true := congrArg Thread.carries hi
  obtain ⟨hreached, hnow, hspaced⟩ : Thread.Sound period s (.storing now) := hi ▸ h.sound i
  have hstored : Reached now.Microseconds now := by
    rw [Reached] at hreached ⊢
    have hmicroseconds : (now.Microseconds.toNat : ℤ) = now.value.toInt / 1000 := by
      apply TTimestamp.Microseconds_toNat
      omega
    omega
  refine
    { once := (h.setThread (t := .executing) hi rfl trivial).once
      reached := hstored.mono hnow
      sound := ?_
      last := ?_
      spaced := ?_
      sleeps := h.sleeps }
  · refine (Function.forall_update_iff s.threads fun _ t => t.Sound period _).mpr
      ⟨trivial, fun j hj => ?_⟩
    exact .of_not_carries (h.alone hcarries hj)
  · intro start hstart
    rw [List.getLast?_concat] at hstart
    exact (Option.mem_some.mp hstart).symm
  · refine List.isChain_append.mpr ⟨h.spaced, .singleton _, ?_⟩
    intro start hstart next hnext
    obtain rfl : now.Microseconds = next := Option.mem_some.mp hnext
    rw [h.last start hstart]
    exact hspaced

/-- The comparison of `diff` with the period, and what follows from it. -/
theorem Inv.test {now execTime : TTimestamp} (h : Inv period s)
    (hi : s.threads i = .testing now execTime)
    (hstep : advance period optional s i (.testing now execTime) = some s') : Inv period s' := by
  obtain ⟨rfl, hreached, hnow⟩ : Thread.Sound period s (.testing now execTime) := hi ▸ h.sound i
  simp only [advance] at hstep
  split at hstep
  · next hdiff =>
      split at hstep
      · obtain rfl := Option.some.inj hstep
        exact h.setThread hi rfl trivial
      · obtain rfl := Option.some.inj hstep
        have hsleeping := h.setThread
          (t := .sleeping (TTimestamp.FromMicroseconds s.execTimeMicroSec)) hi rfl rfl
        refine { hsleeping with sleeps := ?_ }
        exact List.forall_mem_append.mpr
          ⟨h.sleeps, List.forall_mem_singleton.mpr (sleep_proper hdiff)⟩
  · next hdiff =>
      obtain rfl := Option.some.inj hstep
      refine h.setThread hi rfl ⟨hreached, hnow, ?_⟩
      have hle := UInt64.le_iff_toNat_le.mp (UInt64.not_lt.mp hdiff)
      have hstart := diff_toNat hreached
      omega

theorem inv_advance (h : Inv period s)
    (hstep : advance period optional s i (s.threads i) = some s') : Inv period s' := by
  have hsound := h.sound i
  cases hi : s.threads i with
  | idle =>
      rw [hi] at hstep
      cases hstep
  | other =>
      rw [hi] at hstep
      obtain rfl := Option.some.inj hstep
      exact h.setThread hi rfl trivial
  | entered =>
      rw [hi] at hstep
      obtain rfl := Option.some.inj hstep
      exact h.setThread hi rfl ⟨h.reached, TTimestamp.le_refl _⟩
  | loading now =>
      rw [hi] at hstep hsound
      obtain rfl := Option.some.inj hstep
      exact h.setThread hi rfl ⟨rfl, hsound⟩
  | testing now execTime =>
      rw [hi] at hstep
      exact h.test hi hstep
  | sleeping execTime =>
      rw [hi] at hstep hsound
      obtain rfl := Option.some.inj hstep
      exact h.setThread hi rfl
        ⟨hsound, h.reached, TTimestamp.le_refl _⟩
  | pausing =>
      rw [hi] at hstep
      obtain rfl := Option.some.inj hstep
      exact h.setThread hi rfl trivial
  | storing now =>
      rw [hi] at hstep
      obtain rfl := Option.some.inj hstep
      exact h.store hi
  | executing =>
      rw [hi] at hstep
      obtain rfl := Option.some.inj hstep
      exact h.setThread hi rfl trivial
  | posting =>
      rw [hi] at hstep
      obtain rfl := Option.some.inj hstep
      refine h.move ?_ trivial
      rw [List.count_append, hi]
      rfl
  | returning =>
      rw [hi] at hstep
      obtain rfl := Option.some.inj hstep
      exact h.setThread hi rfl trivial

theorem inv_step (h : Inv period s) (hstep : step period optional s e = some s') :
    Inv period s' := by
  cases e with
  | tick now =>
      rw [step, Option.ite_none_right_eq_some, Option.some.injEq] at hstep
      obtain ⟨hnow, rfl⟩ := hstep
      refine { h with reached := h.reached.mono hnow, sound := fun i => ?_ }
      exact (h.sound i).tick hnow
  | post =>
      obtain rfl := Option.some.inj hstep
      refine { h with once := ?_ }
      show (s.queue ++ [Work.other]).count .timed + _ = 1
      rw [List.count_append]
      exact h.once
  | take i =>
      simp only [step] at hstep
      split at hstep
      · next work queue hqueue =>
          rw [Option.ite_none_right_eq_some, Option.some.injEq] at hstep
          obtain ⟨hidle, rfl⟩ := hstep
          cases work with
          | other =>
              refine h.move ?_ trivial
              rw [hqueue, hidle]
              rfl
          | timed =>
              refine h.move ?_ trivial
              rw [hqueue, hidle, List.count_cons_self]
              rfl
      · cases hstep
  | advance i => exact inv_advance h hstep

theorem inv_start (clock : TTimestamp) (hclock : 0 ≤ clock.value.toInt) (waiting : ℕ)
    (busy : Fin nthreads → Bool) : Inv period (start clock waiting busy) where
  once := by
    have hcensus : census Thread.carries (start clock waiting busy).threads = 0 := by
      apply census_eq_zero
      intro i
      show Thread.carries (if busy i then .other else .idle) = false
      split <;> rfl
    rw [State.instances, hcensus]
    show (List.replicate waiting Work.other ++ [Work.timed]).count Work.timed + 0 = 1
    rw [List.count_append, List.count_replicate]
    rfl
  reached := by
    show ((0 : UInt64).toNat * 1000 : ℤ) ≤ clock.value.toInt
    rw [UInt64.toNat_zero]
    omega
  sound i := by
    apply Thread.Sound.of_not_carries
    show Thread.carries (if busy i then .other else .idle) = false
    split <;> rfl
  last _ h := nomatch h
  spaced := .nil
  sleeps _ h := absurd h List.not_mem_nil

/-! ### Every run -/

/-- One instance of the task is in the queue or has been taken from it and not been posted
again; `m_task` is executed by one thread at a time; an execution starts a period after
the one before it; and a sleep is as long as what is left of the period. -/
structure Punctual (period : TDuration) (s : State nthreads) : Prop where
  once : s.instances = 1
  exclusive : ∀ i j, s.threads i = .executing → s.threads j = .executing → i = j
  spaced : s.starts.IsChain fun start next =>
    start.toNat + period.microseconds.toNat ≤ next.toNat
  sleeps : ∀ sleep ∈ s.sleeps, sleep.Proper period

theorem Inv.punctual (h : Inv period s) : Punctual period s where
  once := h.once
  exclusive i j hi hj := by
    by_contra hij
    have halone := h.alone (congrArg Thread.carries hi) (Ne.symm hij)
    rw [hj] at halone
    cases halone
  spaced := h.spaced
  sleeps := h.sleeps

/-- In every run, with any number of threads and any other handlers, from any reading of
the clock that is not negative. -/
theorem timedTask_punctual (period : TDuration) (optional : Bool) (clock : TTimestamp)
    (hclock : 0 ≤ clock.value.toInt) (waiting : ℕ) (busy : Fin nthreads → Bool)
    (events : List (Event nthreads)) (s : State nthreads)
    (hrun : exec (step period optional) (start clock waiting busy) events = some s) :
    Punctual period s :=
  (exec_invariant (I := Inv period) (fun _ _ _ h hstep => inv_step h hstep)
    (inv_start clock hclock waiting busy) hrun).punctual

/-- The first execution, and the second after a sleep that ends too early and one that ends
too late, on two threads. -/
def twoExecutions (i j : Fin nthreads) : List (Event nthreads) :=
  [.take i] ++ List.replicate 7 (.advance i) ++
    [.take j, .tick ⟨11000000000⟩, .advance j, .advance j, .advance j, .tick ⟨14999999999⟩,
      .advance j, .advance j, .tick ⟨15300000000⟩, .advance j, .advance j, .advance j]

theorem timedTask_punctual_twoExecutions :
    ∃ s : State 2, exec (step (.Seconds 5) false) (start ⟨10000000000⟩ 0 fun _ => false)
        (twoExecutions 0 1) = some s ∧
      s.starts = [10000000, 15300000] ∧ Punctual (.Seconds 5) s := by
  have hrun : ∃ s : State 2, exec (step (.Seconds 5) false)
      (start ⟨10000000000⟩ 0 fun _ => false) (twoExecutions 0 1) = some s ∧
        s.starts = [10000000, 15300000] := ⟨_, rfl, rfl⟩
  obtain ⟨s, hs, hstarts⟩ := hrun
  exact ⟨s, hs, hstarts,
    timedTask_punctual (.Seconds 5) false ⟨10000000000⟩ (by decide) 0 _ _ s hs⟩

/-- While one thread has still to return from `Exec`, another one can already be in it. -/
theorem returning_beside_entered :
    ∃ s : State 2, exec (step (.Seconds 5) false) (start ⟨10000000000⟩ 0 fun _ => false)
        ([.take 0] ++ List.replicate 6 (.advance 0) ++ [.take 1]) = some s ∧
      s.queue.count .timed + census Thread.running s.threads = 2 :=
  ⟨_, rfl, rfl⟩

end GJServer.Concurrency
