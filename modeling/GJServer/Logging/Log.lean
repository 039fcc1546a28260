import GJServer.KVStorage.StorageFile
import GJServer.Library.Exec

/-!
The log (`logging/log.h`, `logging/log.cpp`).

Any thread posts a report, which a single thread of the log writes later; `LogSync` waits
until that has been done. Two of the three streams are the same device, and a device
takes a report in as many parts as it likes. `Stop` leaves what is queued unwritten.
-/

namespace GJServer.Logging.TLog

open Library Exec Delimited KVStorage
open Net (Str)

inductive EStream
  | LOGSTREAM
  | ERRORSTREAM
  | STDOUTSTREAM
  deriving DecidableEq

inductive Device
  | cout
  | cerr
  deriving DecidableEq

/-- `SwitchStream`: `m_streamLog` and `m_streamStdOut` are both `std::cout`. -/
def switchStream : EStream → Device
  | .LOGSTREAM => .cout
  | .STDOUTSTREAM => .cout
  | .ERRORSTREAM => .cerr

def makeEndl (str : Str) : Str :=
  if str ≠ [] ∧ str.getLast? ≠ some NEWLINE then str ++ [NEWLINE] else str

/-- A task of the log: where its text goes, and the thread that waits for it, if it was
posted by `LogSync`. -/
structure Report (nthreads : ℕ) where
  device : Device
  text : Str
  waiter : Option (Fin nthreads)
  deriving DecidableEq

/-- The thread of the log; `rest` is what its device has not taken yet. -/
inductive Writer (nthreads : ℕ)
  | unborn
  | idle
  | writing (report : Report nthreads) (rest : Str)
  | exited
  deriving DecidableEq

/-- `waiting` says which threads are in `LogSync`, and `finished` are the tasks that have
been run. -/
structure State (nthreads : ℕ) where
  waiting : Fin nthreads → Bool
  writer : Writer nthreads
  stopped : Bool
  queue : List (Report nthreads)
  finished : List (Report nthreads)
  output : Device → Str

inductive Event (nthreads : ℕ)
  | start
  | log (i : Fin nthreads) (stream : EStream) (report : Str)
  | logSync (i : Fin nthreads) (stream : EStream) (report : Str)
  | take
  | write (n : ℕ)
  | finish
  | stop
  | exit

variable {nthreads : ℕ}

def make : State nthreads where
  waiting := fun _ => false
  writer := .unborn
  stopped := false
  queue := []
  finished := []
  output := fun _ => []

/-- The thread that waited for the task goes on. -/
def wake (waiting : Fin nthreads → Bool) : Option (Fin nthreads) → Fin nthreads → Bool
  | some i => Function.update waiting i false
  | none => waiting

def step (s : State nthreads) : Event nthreads → Option (State nthreads)
  | .start => if s.writer = .unborn then some { s with writer := .idle } else none
  | .log i stream report =>
      if s.waiting i = false then
        some { s with queue := s.queue ++ [⟨switchStream stream, makeEndl report, none⟩] }
      else none
  | .logSync i stream report =>
      if s.waiting i = false then
        some { s with
          queue := s.queue ++ [⟨switchStream stream, makeEndl report, some i⟩]
          waiting := Function.update s.waiting i true }
      else none
  | .take =>
      match s.writer, s.queue with
      | .idle, report :: queue =>
          if s.stopped = false then
            some { s with writer := .writing report report.text, queue := queue }
          else none
      | _, _ => none
  | .write n =>
      match s.writer with
      | .writing report rest =>
          if 0 < n ∧ n ≤ rest.length then
            some { s with
              writer := .writing report (rest.drop n)
              output := Function.update s.output report.device
                (s.output report.device ++ rest.take n) }
          else none
      | _ => none
  | .finish =>
      match s.writer with
      | .writing report [] =>
          some { s with
            writer := .idle
            finished := s.finished ++ [report]
            waiting := wake s.waiting report.waiter }
      | _ => none
  | .stop => some { s with stopped := true }
  | .exit =>
      if s.writer = .idle ∧ s.stopped = true then some { s with writer := .exited } else none

/-- The report that is being written. -/
def Writer.report : Writer nthreads → List (Report nthreads)
  | .writing report _ => [report]
  | _ => []

/-- What a device has still to take of it. -/
def Writer.rest (writer : Writer nthreads) (d : Device) : Str :=
  match writer with
  | .writing report rest => if report.device = d then rest else []
  | _ => []

namespace State

/-- The tasks that have not been run to their end. -/
def unfinished (s : State nthreads) : List (Report nthreads) := s.writer.report ++ s.queue

/-- All tasks, in the order in which they were posted. -/
def posted (s : State nthreads) : List (Report nthreads) := s.finished ++ s.unfinished

end State

/-- The texts for one device, one after the other. -/
def textOf (reports : List (Report nthreads)) (d : Device) : Str :=
  ((reports.filter fun report => report.device = d).map Report.text).flatten

/-- Whoever is in `LogSync` has one unfinished task, and nobody else has. -/
structure Inv (s : State nthreads) : Prop where
  output : ∀ d, s.output d ++ s.writer.rest d = textOf (s.finished ++ s.writer.report) d
  terminated : ∀ report ∈ s.posted, Terminated NEWLINE report.text
  waiting : ∀ i, (∃ report ∈ s.unfinished, report.waiter = some i) ↔ s.waiting i = true
  once : s.unfinished.Pairwise fun r r' => ∀ i, r.waiter = some i → r'.waiter ≠ some i
  part : ∀ report rest, s.writer = .writing report rest → rest <:+ report.text
  exited : s.writer = .exited → s.stopped = true

variable {s s' : State nthreads} {e : Event nthreads}

theorem terminated_makeEndl (str : Str) : Terminated NEWLINE (makeEndl str) := by
  unfold makeEndl
  split
  · exact Or.inr List.getLast?_concat
  · next h =>
      by_cases hnil : str = []
      · exact Or.inl hnil
      · exact Or.inr (by simpa [hnil] using h)

theorem textOf_append (reports reports' : List (Report nthreads)) (d : Device) :
    textOf (reports ++ reports') d = textOf reports d ++ textOf reports' d := by
  rw [textOf, List.filter_append, List.map_append, List.flatten_append]
  rfl

theorem textOf_singleton (report : Report nthreads) (d : Device) :
    textOf [report] d = if report.device = d then report.text else [] := by
  unfold textOf
  by_cases hd : report.device = d <;> simp [hd]

theorem inv_make : Inv (make : State nthreads) where
  output _ := rfl
  terminated _ h := absurd h List.not_mem_nil
  waiting i := by simp [make, State.unfinished, Writer.report]
  once := List.Pairwise.nil
  part _ _ h := by cases h
  exited h := by cases h

/-- A task goes to the end of the queue. -/
theorem inv_post (h : Inv s) {d : Device} {str : Str} {waiter : Option (Fin nthreads)}
    {waiting : Fin nthreads → Bool}
    (hfresh : ∀ i, waiter = some i → s.waiting i = false)
    (hwaiting : ∀ i, waiting i = true ↔ s.waiting i = true ∨ waiter = some i) :
    Inv { s with queue := s.queue ++ [⟨d, makeEndl str, waiter⟩], waiting := waiting } := by
  have hunfinished : State.unfinished
      { s with queue := s.queue ++ [⟨d, makeEndl str, waiter⟩], waiting := waiting } =
        s.unfinished ++ [⟨d, makeEndl str, waiter⟩] := (List.append_assoc ..).symm
  refine ⟨h.output, fun report hreport => ?_, fun i => ?_, ?_, h.part, h.exited⟩
  · rw [State.posted, hunfinished, ← List.append_assoc] at hreport
    rcases List.mem_append.mp hreport with hold | hnew
    · exact h.terminated report hold
    · rw [List.mem_singleton.mp hnew]
      exact terminated_makeEndl str
  · rw [hunfinished, hwaiting, ← h.waiting i]
    constructor
    · rintro ⟨report, hreport, hi⟩
      rcases List.mem_append.mp hreport with hold | hnew
      · exact Or.inl ⟨report, hold, hi⟩
      · rw [List.mem_singleton.mp hnew] at hi
        exact Or.inr hi
    · rintro (⟨report, hreport, hi⟩ | hi)
      · exact ⟨report, List.mem_append_left _ hreport, hi⟩
      · exact ⟨_, List.mem_append_right _ (List.mem_singleton_self _), hi⟩
  · rw [hunfinished]
    refine List.pairwise_append.mpr ⟨h.once, List.pairwise_singleton .., ?_⟩
    intro report hreport new hnew i hi hnew'
    -- a thread that waits for a task cannot have posted another one
    rw [List.mem_singleton.mp hnew] at hnew'
    have hwaits := (h.waiting i).mp ⟨report, hreport, hi⟩
    rw [hfresh i hnew'] at hwaits
    cases hwaits

theorem inv_take (h : Inv s) {report : Report nthreads} {queue : List (Report nthreads)}
    (hwriter : s.writer = .idle) (hqueue : s.queue = report :: queue) :
    Inv { s with writer := .writing report report.text, queue := queue } := by
  have hunfinished : State.unfinished
      { s with writer := .writing report report.text, queue := queue } = s.unfinished := by
    rw [State.unfinished, State.unfinished, hwriter, hqueue]
    rfl
  refine ⟨fun d => ?_, fun r hr => h.terminated r ?_, fun i => ?_, ?_, fun r rest hr => ?_,
    fun hexit => by cases hexit⟩
  · have houtput := h.output d
    rw [hwriter] at houtput
    rw [textOf_append, Writer.report, textOf_singleton, ← List.append_nil (s.finished)]
    exact congrArg (· ++ _) ((List.append_nil _).symm.trans houtput)
  · rw [State.posted, hunfinished] at hr
    exact hr
  · rw [hunfinished]
    exact h.waiting i
  · rw [hunfinished]
    exact h.once
  · obtain ⟨rfl, rfl⟩ := Writer.writing.inj hr
    exact List.suffix_rfl

theorem inv_write (h : Inv s) {report : Report nthreads} {rest : Str} (n : ℕ)
    (hwriter : s.writer = .writing report rest) :
    Inv { s with
      writer := .writing report (rest.drop n)
      output := Function.update s.output report.device
        (s.output report.device ++ rest.take n) } := by
  have hreport : s.writer.report = [report] := by rw [hwriter]; rfl
  refine ⟨fun d => ?_, fun r hr => h.terminated r ?_, fun i => ?_, ?_, fun r rest' hr => ?_,
    fun hexit => by cases hexit⟩
  · have houtput := h.output d
    rw [hreport, hwriter, Writer.rest] at houtput
    show Function.update s.output report.device _ d ++
      (if report.device = d then rest.drop n else []) = textOf (s.finished ++ [report]) d
    rw [← houtput]
    by_cases hd : report.device = d
    · subst hd
      rw [Function.update_self, if_pos rfl, if_pos rfl, List.append_assoc,
        List.take_append_drop]
    · rw [Function.update_of_ne (Ne.symm hd), if_neg hd, if_neg hd]
  · rw [State.posted, State.unfinished, hreport]
    exact hr
  · rw [← h.waiting i, State.unfinished, State.unfinished, hreport]
    rfl
  · have honce := h.once
    rw [State.unfinished, hreport] at honce
    exact honce
  · obtain ⟨rfl, rfl⟩ := Writer.writing.inj hr
    exact (List.drop_suffix n rest).trans (h.part report rest hwriter)

theorem inv_finish (h : Inv s) {report : Report nthreads}
    (hwriter : s.writer = .writing report []) :
    Inv { s with
      writer := .idle
      finished := s.finished ++ [report]
      waiting := wake s.waiting report.waiter } := by
  have hunfinished : s.unfinished = report :: s.queue := by
    rw [State.unfinished, hwriter]
    rfl
  have honce := h.once
  rw [hunfinished, List.pairwise_cons] at honce
  refine ⟨fun d => ?_, fun r hr => h.terminated r ?_, fun i => ?_, honce.2,
    fun r rest hr => (by cases hr), fun hexit => (by cases hexit)⟩
  · have houtput := h.output d
    rw [hwriter, Writer.rest, ite_self] at houtput
    exact houtput.trans (congrArg (textOf · d) (List.append_nil _).symm)
  · rw [State.posted, hunfinished]
    have hmem : r ∈ s.finished ++ [report] ++ s.queue := hr
    rwa [List.append_assoc] at hmem
  · have hwaiting := h.waiting i
    rw [hunfinished] at hwaiting
    show (∃ r ∈ s.queue, r.waiter = some i) ↔ wake s.waiting report.waiter i = true
    cases hwaiter : report.waiter with
    | none =>
        rw [wake, ← hwaiting]
        simp [hwaiter]
    | some j =>
        rw [wake]
        by_cases hij : i = j
        · subst hij
          rw [Function.update_self]
          simp only [Bool.false_eq_true, iff_false, not_exists, not_and]
          exact fun r hr => honce.1 r hr i hwaiter
        · rw [Function.update_of_ne hij, ← hwaiting]
          simp [hwaiter, Ne.symm hij]

/-- Nothing is being written before or after. -/
theorem inv_writer (h : Inv s) {writer : Writer nthreads} (hreport : s.writer.report = [])
    (hrest : ∀ d, s.writer.rest d = []) (hreport' : writer.report = [])
    (hrest' : ∀ d, writer.rest d = [])
    (hpart : ∀ report rest, writer ≠ .writing report rest)
    (hexited : writer = .exited → s.stopped = true) :
    Inv { s with writer := writer } := by
  have hunfinished : State.unfinished { s with writer := writer } = s.unfinished := by
    rw [State.unfinished, State.unfinished, hreport, hreport']
  refine ⟨fun d => ?_, fun r hr => h.terminated r ?_, fun i => ?_, ?_,
    fun r rest hr => absurd hr (hpart r rest), hexited⟩
  · have houtput := h.output d
    rw [hreport, hrest] at houtput
    rw [hreport', hrest']
    exact houtput
  · rw [State.posted, hunfinished] at hr
    exact hr
  · rw [hunfinished]
    exact h.waiting i
  · rw [hunfinished]
    exact h.once

theorem inv_step (h : Inv s) (hstep : step s e = some s') : Inv s' := by
  cases e with
  | start =>
      rw [step, Option.ite_none_right_eq_some, Option.some.injEq] at hstep
      obtain ⟨hwriter, rfl⟩ := hstep
      exact inv_writer h (by rw [hwriter]; rfl) (fun _ => by rw [hwriter]; rfl) rfl
        (fun _ => rfl) (by simp) fun hexit => by cases hexit
  | log i stream report =>
      rw [step, Option.ite_none_right_eq_some, Option.some.injEq] at hstep
      obtain ⟨hrunning, rfl⟩ := hstep
      refine inv_post h (fun j hj => by cases hj) fun j => ?_
      simp
  | logSync i stream report =>
      rw [step, Option.ite_none_right_eq_some, Option.some.injEq] at hstep
      obtain ⟨hrunning, rfl⟩ := hstep
      refine inv_post h (fun j hj => Option.some.inj hj ▸ hrunning) fun j => ?_
      by_cases hij : j = i
      · simp [hij]
      · simp [Function.update_of_ne hij, Ne.symm hij]
  | take =>
      simp only [step] at hstep
      split at hstep
      · next report queue hwriter hqueue =>
          rw [Option.ite_none_right_eq_some, Option.some.injEq] at hstep
          obtain ⟨-, rfl⟩ := hstep
          exact inv_take h hwriter hqueue
      · cases hstep
  | write n =>
      simp only [step] at hstep
      split at hstep
      · next report rest hwriter =>
          rw [Option.ite_none_right_eq_some, Option.some.injEq] at hstep
          obtain ⟨-, rfl⟩ := hstep
          exact inv_write h n hwriter
      · cases hstep
  | finish =>
      simp only [step] at hstep
      split at hstep
      · next report hwriter =>
          obtain rfl := Option.some.inj hstep
          exact inv_finish h hwriter
      · cases hstep
  | stop =>
      obtain rfl := Option.some.inj hstep
      exact ⟨h.output, h.terminated, h.waiting, h.once, h.part, fun _ => rfl⟩
  | exit =>
      rw [step, Option.ite_none_right_eq_some, Option.some.injEq] at hstep
      obtain ⟨⟨hwriter, hstopped⟩, rfl⟩ := hstep
      exact inv_writer h (by rw [hwriter]; rfl) (fun _ => by rw [hwriter]; rfl) rfl
        (fun _ => rfl) (by simp) fun _ => hstopped

/-! ### What is written -/

/-- The task that an event posts. -/
def posts : Event nthreads → Option (Report nthreads)
  | .log _ stream report => some ⟨switchStream stream, makeEndl report, none⟩
  | .logSync i stream report => some ⟨switchStream stream, makeEndl report, some i⟩
  | _ => none

/-- A task is posted behind all others, and from then on keeps its place. -/
theorem posted_step (hstep : step s e = some s') :
    s'.posted = s.posted ++ (posts e).toList := by
  cases e with
  | start =>
      rw [step, Option.ite_none_right_eq_some, Option.some.injEq] at hstep
      obtain ⟨hwriter, rfl⟩ := hstep
      simp [State.posted, State.unfinished, hwriter, Writer.report, posts]
  | log i stream report =>
      rw [step, Option.ite_none_right_eq_some, Option.some.injEq] at hstep
      obtain ⟨-, rfl⟩ := hstep
      simp [State.posted, State.unfinished, posts]
  | logSync i stream report =>
      rw [step, Option.ite_none_right_eq_some, Option.some.injEq] at hstep
      obtain ⟨-, rfl⟩ := hstep
      simp [State.posted, State.unfinished, posts]
  | take =>
      simp only [step] at hstep
      split at hstep
      · next report queue hwriter hqueue =>
          rw [Option.ite_none_right_eq_some, Option.some.injEq] at hstep
          obtain ⟨-, rfl⟩ := hstep
          simp [State.posted, State.unfinished, hwriter, hqueue, Writer.report, posts]
      · cases hstep
  | write n =>
      simp only [step] at hstep
      split at hstep
      · next report rest hwriter =>
          rw [Option.ite_none_right_eq_some, Option.some.injEq] at hstep
          obtain ⟨-, rfl⟩ := hstep
          simp [State.posted, State.unfinished, hwriter, Writer.report, posts]
      · cases hstep
  | finish =>
      simp only [step] at hstep
      split at hstep
      · next report hwriter =>
          obtain rfl := Option.some.inj hstep
          simp [State.posted, State.unfinished, hwriter, Writer.report, posts]
      · cases hstep
  | stop =>
      obtain rfl := Option.some.inj hstep
      exact (List.append_nil _).symm
  | exit =>
      rw [step, Option.ite_none_right_eq_some, Option.some.injEq] at hstep
      obtain ⟨⟨hwriter, -⟩, rfl⟩ := hstep
      simp [State.posted, State.unfinished, hwriter, Writer.report, posts]

theorem posted_of_run {events : List (Event nthreads)} (hrun : exec step make events = some s) :
    s.posted = events.filterMap posts := by
  refine exec_history (I := fun t s => s.posted = t.filterMap posts) rfl ?_ hrun
  intro t s e s' hposted hstep
  rw [posted_step hstep, hposted, List.filterMap_append]
  cases he : posts e <;> simp [he]

/-- While the thread of the log has nothing half written, each device has taken whole
reports, in the order in which they were posted, each on lines of its own, and none that
was posted later than one that is missing anywhere. In between a device has a part of the
next. What a thread has waited for is written, with all that was posted before it; and
until the log is stopped it can go on writing as long as somebody waits. -/
structure Orderly (events : List (Event nthreads)) (s : State nthreads) : Prop where
  output : ∀ d, s.output d <+: textOf (events.filterMap posts) d
  whole : s.writer.report = [] → ∃ k, ∀ d,
    s.output d = textOf ((events.filterMap posts).take k) d ∧
      lines NEWLINE (s.output d) =
        (((events.filterMap posts).take k).filter fun report => report.device = d).flatMap
          fun report => lines NEWLINE report.text
  sync : ∀ pre report post i, events.filterMap posts = pre ++ report :: post →
    report.waiter = some i → s.waiting i = false →
      ∀ d, textOf (pre ++ [report]) d <+: s.output d
  progress : (∃ i, s.waiting i = true) → s.stopped = false → s.writer ≠ .unborn →
    (step s .take).isSome ∨ (step s (.write 1)).isSome ∨ (step s .finish).isSome

/-- A thread that is not in `LogSync` has nothing unfinished, so that its reports are
among the finished ones. -/
theorem Inv.finished_of_sync (h : Inv s) {pre post : List (Report nthreads)}
    {report : Report nthreads} {i : Fin nthreads} (hposted : s.posted = pre ++ report :: post)
    (hwaiter : report.waiter = some i) (hi : s.waiting i = false) :
    pre ++ [report] <+: s.finished := by
  have hnot : report ∉ s.unfinished := by
    intro hmem
    have hwaits := (h.waiting i).mp ⟨report, hmem, hwaiter⟩
    rw [hi] at hwaits
    cases hwaits
  rw [List.append_cons, State.posted] at hposted
  rcases List.append_eq_append_iff.mp hposted with ⟨more, hpre, hunfinished⟩ | ⟨more, hpre, -⟩
  · rcases List.eq_nil_or_concat more with rfl | ⟨front, last, rfl⟩
    · rw [hpre, List.append_nil]
    · rw [List.concat_eq_append, ← List.append_assoc] at hpre
      obtain rfl := List.singleton_inj.mp (List.append_inj' hpre rfl).2
      exact absurd (hunfinished ▸ by simp) hnot
  · exact ⟨more, hpre.symm⟩

/-- The texts of the finished reports are on their devices. -/
theorem Inv.finished_prefix (h : Inv s) (d : Device) : textOf s.finished d <+: s.output d := by
  have houtput := h.output d
  rw [textOf_append] at houtput
  cases hwriter : s.writer with
  | writing report rest =>
      obtain ⟨taken, htaken⟩ := h.part report rest hwriter
      rw [hwriter, Writer.report, Writer.rest, textOf_singleton] at houtput
      split at houtput
      · rw [← htaken, ← List.append_assoc] at houtput
        exact ⟨taken, (List.append_inj' houtput rfl).1.symm⟩
      · rw [List.append_nil, List.append_nil] at houtput
        rw [houtput]
  | _ =>
      rw [hwriter] at houtput
      have heq : s.output d ++ [] = textOf s.finished d ++ [] := houtput
      rw [List.append_nil, List.append_nil] at heq
      rw [heq]

theorem Inv.output_of_finished (h : Inv s) (hidle : s.writer.report = []) (d : Device) :
    s.output d = textOf s.finished d := by
  have houtput := h.output d
  rw [hidle, List.append_nil] at houtput
  cases hwriter : s.writer with
  | writing report rest =>
      rw [hwriter] at hidle
      cases hidle
  | _ =>
      rw [hwriter] at houtput
      exact (List.append_nil _).symm.trans houtput

theorem lines_textOf (h : Inv s) (d : Device) :
    lines NEWLINE (textOf s.finished d) =
      (s.finished.filter fun report => report.device = d).flatMap
        fun report => lines NEWLINE report.text := by
  rw [textOf, lines_flatten, List.flatMap_map]
  intro t ht
  obtain ⟨report, hreport, rfl⟩ := List.mem_map.mp ht
  exact h.terminated report (List.mem_append_left _ (List.mem_of_mem_filter hreport))

theorem orderly_of_run (events : List (Event nthreads)) (s : State nthreads)
    (hrun : exec step make events = some s) : Orderly events s := by
  have h : Inv s := exec_invariant (fun _ _ _ => inv_step) inv_make hrun
  have hposted := posted_of_run hrun
  refine ⟨fun d => ?_, fun hidle => ⟨s.finished.length, fun d => ?_⟩,
    fun pre report post i hsplit hwaiter hi d => ?_, fun hwaits hstopped hunborn => ?_⟩
  · rw [← hposted, State.posted, State.unfinished, ← List.append_assoc, textOf_append, ← h.output d,
      List.append_assoc]
    exact List.prefix_append ..
  · have hfinished : (events.filterMap posts).take s.finished.length = s.finished := by
      rw [← hposted, State.posted, List.take_left]
    rw [hfinished, h.output_of_finished hidle d]
    exact ⟨rfl, lines_textOf h d⟩
  · obtain ⟨more, hmore⟩ := h.finished_of_sync (hposted.trans hsplit) hwaiter hi
    refine List.IsPrefix.trans ?_ (h.finished_prefix d)
    exact ⟨textOf more d, by rw [← hmore, textOf_append _ more]⟩
  · obtain ⟨i, hi⟩ := hwaits
    obtain ⟨report, hreport, -⟩ := (h.waiting i).mpr hi
    rw [State.unfinished] at hreport
    cases hwriter : s.writer with
    | unborn => exact absurd hwriter hunborn
    | exited =>
        have hexited := h.exited hwriter
        rw [hstopped] at hexited
        cases hexited
    | idle =>
        rw [hwriter] at hreport
        have hne : s.queue ≠ [] := List.ne_nil_of_mem (show report ∈ s.queue from hreport)
        obtain ⟨first, queue, hqueue⟩ := List.exists_cons_of_ne_nil hne
        refine Or.inl ?_
        simp only [step, hwriter, hqueue, hstopped, if_true, Option.isSome_some]
    | writing current rest =>
        refine Or.inr ?_
        cases rest with
        | nil =>
            refine Or.inr ?_
            simp only [step, hwriter, Option.isSome_some]
        | cons b rest =>
            refine Or.inl ?_
            simp [step, hwriter]

/-- An asynchronous report, a report of an error that a thread waits for, and one that
comes after the log has been stopped. -/
theorem orderly_of_run_three :
    ∃ s : State 2, exec step make
        [.start, .log 0 .LOGSTREAM [97], .logSync 1 .ERRORSTREAM [98, 10], .take, .write 2,
          .finish, .take, .write 1, .write 1, .finish, .stop, .log 1 .STDOUTSTREAM [99]] =
          some s ∧
      s.output .cout = [97, 10] ∧ s.output .cerr = [98, 10] ∧ s.waiting 1 = false ∧
      Orderly [.start, .log 0 .LOGSTREAM [97], .logSync 1 .ERRORSTREAM [98, 10], .take, .write 2,
        .finish, .take, .write 1, .write 1, .finish, .stop, .log 1 .STDOUTSTREAM [99]] s := by
  have hrun : ∃ s : State 2, exec step make
      [.start, .log 0 .LOGSTREAM [97], .logSync 1 .ERRORSTREAM [98, 10], .take, .write 2,
        .finish, .take, .write 1, .write 1, .finish, .stop, .log 1 .STDOUTSTREAM [99]] = some s ∧
      s.output .cout = [97, 10] ∧ s.output .cerr = [98, 10] ∧ s.waiting 1 = false :=
    ⟨_, rfl, rfl, rfl, rfl⟩
  obtain ⟨s, hs, hcout, hcerr, hwaiting⟩ := hrun
  exact ⟨s, hs, hcout, hcerr, hwaiting, orderly_of_run _ s hs⟩

end GJServer.Logging.TLog
