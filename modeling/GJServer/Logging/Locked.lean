import GJServer.Library.ReadersWriter
import GJServer.Logging.Conservation

/-!
The statistics under `m_mutex` (`logging/stat.cpp`). `LogAccess` and the first section of
`ReportGlobalStat` take the lock exclusively, read the clock, and take one entry after the
other from the frame; the second section copies two pairs of counters under the shared lock.
Between two such steps other threads run.
-/

namespace GJServer.Logging.Locked

open Library Exec Grouping ReadersWriter Net Utils

/-- The statistics, and the last reading of the clock. -/
structure Shared where
  stat : TStat
  clock : TTimestamp

/-- The clock when it has gone on to `time`, unless it is later already. -/
def later (clock time : TTimestamp) : TTimestamp := if clock ≤ time then time else clock

/-- `clear` and `copy` are the two sections of `ReportGlobalStat`. The clock shows `time`
when it is read, or the same as before. -/
inductive Operation
  | logAccess (key : Str) (isRead : Bool) (time : TTimestamp)
  | clear (time : TTimestamp)
  | copy

inductive Outcome
  | access (report : AccessReport)
  | cleared
  | report (report : GlobalReport)
  deriving DecidableEq

/-- An assignment to a member. -/
def assign (f : TStat → TStat) (rest : Shared → Section Shared Outcome) :
    Section Shared Outcome :=
  .act (fun o => { o with stat := f o.stat }) rest

/-- The loop of `ClearStatFrame`, with room for `n` entries, and what comes behind it. -/
def clearRest (now : TTimestamp) (rest : Section Shared Outcome) : ℕ → Section Shared Outcome
  | 0 => rest
  | n + 1 =>
      .act id fun o =>
        match o.stat.frame with
        | [] => rest
        | front :: _ =>
            if now - front.1 < o.stat.frameDuration then rest
            else
              assign (fun stat => { stat with frame := stat.frame.tail }) fun _ =>
                assign (fun stat =>
                  { stat with framedStat := stat.framedStat.decrement front.2 }) fun _ =>
                  clearRest now rest n

/-- `TTimestamp::Now`, and `ClearStatFrame` with that time. -/
def clearFrameSection (time : TTimestamp) (rest : TTimestamp → Section Shared Outcome) :
    Section Shared Outcome :=
  .act (fun o => { o with clock := later o.clock time }) fun o =>
    let now := later o.clock time
    clearRest now (rest now) o.stat.frame.length

/-- `m_globalStatByKey[key]` enters a key that is not there. -/
def enter (key : Str) (stat : TStat) : TStat :=
  if key ∈ stat.globalStatByKey then stat
  else { stat with globalStatByKey := stat.globalStatByKey.insert key .zero }

def countKey (key : Str) (isRead : Bool) (stat : TStat) : TStat :=
  { stat with
    globalStatByKey := stat.globalStatByKey.insert key ((stat.byKey key).increment isRead) }

def logAccessSection (key : Str) (isRead : Bool) (time : TTimestamp) :
    Section Shared Outcome :=
  clearFrameSection time fun now =>
    assign (enter key) fun _ =>
      assign (countKey key isRead) fun _ =>
        assign (fun stat => { stat with globalStat := stat.globalStat.increment isRead }) fun _ =>
          assign (fun stat => { stat with framedStat := stat.framedStat.increment isRead })
            fun _ => .act id fun o =>
              let clone := o.stat.byKey key
              assign (fun stat => { stat with frame := stat.frame ++ [(now, isRead)] }) fun _ =>
                .done (.access ⟨key, clone⟩)

def copySection : Section Shared Outcome :=
  .act id fun o =>
    let globalStat := o.stat.globalStat
    .act id fun o => .done (.report ⟨o.stat.framedStat, globalStat⟩)

theorem readOnly_copySection : copySection.ReadOnly := .act fun _ => .act fun _ => .done _

def call : Operation → Call Shared Outcome
  | .logAccess key isRead time => ⟨false, logAccessSection key isRead time, fun h => by cases h⟩
  | .clear time => ⟨false, clearFrameSection time fun _ => .done .cleared, fun h => by cases h⟩
  | .copy => ⟨true, copySection, fun _ => readOnly_copySection⟩

/-- The section in one step. -/
def perform (o : Shared) : Operation → Shared × Outcome
  | .logAccess key isRead time =>
      let now := later o.clock time
      let logged := o.stat.logAccess key isRead now
      (⟨logged.1, now⟩, .access ⟨key, logged.2⟩)
  | .clear time =>
      let now := later o.clock time
      (⟨o.stat.clearStatFrame now, now⟩, .cleared)
  | .copy => (o, .report ⟨o.stat.framedStat, o.stat.globalStat⟩)

theorem run_clearRest (now : TTimestamp) (rest : Section Shared Outcome) {n : ℕ} {o : Shared}
    (hn : o.stat.frame.length ≤ n) :
    (clearRest now rest n).run o = rest.run { o with stat := o.stat.clearStatFrame now } := by
  obtain ⟨⟨byKey, globalStat, framedStat, frame, frameDuration⟩, clock⟩ := o
  induction n generalizing framedStat frame with
  | zero =>
      obtain rfl : frame = [] := List.length_eq_zero_iff.mp (Nat.le_zero.mp hn)
      rfl
  | succ n ih =>
      cases frame with
      | nil => rfl
      | cons front frame =>
          rw [clearRest, Section.run]
          dsimp only [id_eq]
          simp only [TStat.clearStatFrame, TStat.clearFrame]
          split
          · rfl
          · rw [assign, Section.run, assign, Section.run]
            exact ih _ _ (Nat.le_of_succ_le_succ hn)

theorem run_clearFrameSection (time : TTimestamp)
    (rest : TTimestamp → Section Shared Outcome) (o : Shared) :
    (clearFrameSection time rest).run o =
      (rest (later o.clock time)).run
        ⟨o.stat.clearStatFrame (later o.clock time), later o.clock time⟩ := by
  rw [clearFrameSection, Section.run]
  exact run_clearRest _ _ le_rfl

theorem countKey_enter (key : Str) (isRead : Bool) (stat : TStat) :
    countKey key isRead (enter key stat) = countKey key isRead stat := by
  unfold enter
  split
  · rfl
  · next hkey =>
      rw [countKey, countKey, TStat.byKey, TStat.byKey, Finmap.lookup_insert, Option.getD_some,
        Finmap.lookup_eq_none.mpr hkey, Option.getD_none, Finmap.insert_insert]

theorem byKey_countKey (key : Str) (isRead : Bool) (stat : TStat) :
    (countKey key isRead stat).byKey key = (stat.byKey key).increment isRead := by
  rw [TStat.byKey, countKey, Finmap.lookup_insert, Option.getD_some]

/-- Uninterrupted, the sections do what the functions say. -/
theorem run_call (op : Operation) (o : Shared) : (call op).body.run o = perform o op := by
  cases op with
  | logAccess key isRead time =>
      show (logAccessSection key isRead time).run o = _
      rw [logAccessSection, run_clearFrameSection]
      simp only [assign, Section.run, countKey_enter]
      refine Prod.ext rfl ?_
      exact congrArg (fun clone => Outcome.access ⟨key, clone⟩) (byKey_countKey _ _ _)
  | clear time =>
      show (clearFrameSection time fun _ => .done .cleared).run o = _
      rw [run_clearFrameSection]
      rfl
  | copy => rfl

/-! ### Any number of threads -/

variable {nthreads : ℕ}

abbrev History (nthreads : ℕ) := List (ReadersWriter.Entry (Fin nthreads) Operation Outcome)

/-- The last reading of the clock after an operation. -/
def readClock (clock : TTimestamp) : Operation → TTimestamp
  | .logAccess _ _ time => later clock time
  | .clear time => later clock time
  | .copy => clock

def reading (clock : TTimestamp) (history : History nthreads) : TTimestamp :=
  history.foldl (fun clock entry => readClock clock entry.op) clock

/-- What an operation logs at this reading of the clock. -/
def logged (now : TTimestamp) : Operation → List (Str × Logging.Entry)
  | .logAccess key isRead _ => [(key, now, isRead)]
  | _ => []

/-- The accesses of a history. -/
def accesses (clock : TTimestamp) : History nthreads → List (Str × Logging.Entry)
  | [] => []
  | entry :: history =>
      let now := readClock clock entry.op
      logged now entry.op ++ accesses now history

/-- The statistics after the sections, one after the other. -/
def performAll (clock : TTimestamp) (history : History nthreads) : Shared :=
  history.foldl (fun o entry => (perform o entry.op).1) ⟨.make, clock⟩

/-- What the sections of any number of threads print is exact at the moment at which they
give the lock back: `LogAccess` the number of accesses to its key so far, and a report those
of all accesses, and of the accesses in the frame. -/
structure Accurate (clock : TTimestamp)
    (s : ReadersWriter.State (Fin nthreads) Operation Shared Outcome) : Prop where
  access : ∀ pre i key isRead time result post,
    s.finished = pre ++ ⟨i, .logAccess key isRead time, result⟩ :: post →
      result = .access ⟨key, tally (valuesAt key
        (accesses clock pre ++ [(key, later (reading clock pre) time, isRead)]))⟩
  report : ∀ pre i result post, s.finished = pre ++ ⟨i, .copy, result⟩ :: post →
    let entries := (accesses clock pre).map Prod.snd
    result = .report ⟨tally (entries.filter
      (inFrame TStat.DEFAULT_FRAME_DURATION (reading clock pre))), tally entries⟩
  stat : (∀ i op rest, s.threads i = .inside op rest → (call op).shared = true) →
    let entries := (accesses clock s.finished).map Prod.snd
    s.object.stat.globalStat = tally entries ∧
      s.object.stat.frame = entries.filter
        (inFrame TStat.DEFAULT_FRAME_DURATION (reading clock s.finished)) ∧
      s.object.stat.framedStat = tally s.object.stat.frame ∧
      ∀ key, s.object.stat.byKey key = tally (valuesAt key (accesses clock s.finished))

variable {clock : TTimestamp} {history : History nthreads}
variable {entry : ReadersWriter.Entry (Fin nthreads) Operation Outcome}

theorem le_later (clock time : TTimestamp) : clock ≤ later clock time := by
  unfold later
  split
  · next hle => exact hle
  · exact TTimestamp.le_refl clock

theorem reading_concat :
    reading clock (history ++ [entry]) = readClock (reading clock history) entry.op := by
  rw [reading, List.foldl_append]
  rfl

theorem accesses_concat : accesses clock (history ++ [entry]) =
    accesses clock history ++ logged (readClock (reading clock history) entry.op) entry.op := by
  induction history generalizing clock with
  | nil => exact List.append_nil _
  | cons first history ih =>
      rw [List.cons_append, accesses, accesses, ih, List.append_assoc]
      rfl

theorem performAll_concat :
    performAll clock (history ++ [entry]) = (perform (performAll clock history) entry.op).1 := by
  rw [performAll, List.foldl_append]
  rfl

theorem after_eq (clock : TTimestamp) (history : History nthreads) :
    ReadersWriter.after call ⟨.make, clock⟩ history = performAll clock history := by
  unfold ReadersWriter.after performAll
  simp only [run_call]

/-- The history is one of `Logging.step`, in which a section is one step. -/
structure Explains (clock : TTimestamp) (history : History nthreads) (s : Logging.State)
    (g : Recount) : Prop where
  object : performAll clock history = ⟨s.stat, s.clock⟩
  read : reading clock history = s.clock
  logged : accesses clock history = g.accesses
  inv : Inv s g
  counted : Counted s g

theorem exists_explains (clock : TTimestamp) (history : History nthreads) :
    ∃ s g, Explains clock history s g := by
  induction history using List.reverseRecOn with
  | nil => exact ⟨Logging.start clock, .start, rfl, rfl, rfl, inv_start clock, counted_start clock⟩
  | append_singleton history entry ih =>
      obtain ⟨s, g, h⟩ := ih
      obtain ⟨i, op, result⟩ := entry
      cases op with
      | logAccess key isRead time =>
          have hstep : ∃ s', step s (.logAccess key isRead (later s.clock time)) = some s' :=
            ⟨_, if_pos (le_later s.clock time)⟩
          obtain ⟨s', hs'⟩ := hstep
          refine ⟨s', g.note _ s s', ?_, ?_, ?_, inv_step h.inv hs', counted_step h.counted hs'⟩
          all_goals cases step_cases hs'
          · rw [performAll_concat, h.object]
            rfl
          · rw [reading_concat, h.read]
            rfl
          · rw [accesses_concat, h.logged, h.read]
            rfl
      | clear time =>
          have hstep : ∃ s', step s (.reportClear (later s.clock time)) = some s' :=
            ⟨_, if_pos (le_later s.clock time)⟩
          obtain ⟨s', hs'⟩ := hstep
          refine ⟨s', g.note _ s s', ?_, ?_, ?_, inv_step h.inv hs', counted_step h.counted hs'⟩
          all_goals cases step_cases hs'
          · rw [performAll_concat, h.object]
            rfl
          · rw [reading_concat, h.read]
            rfl
          · rw [accesses_concat, h.logged]
            exact List.append_nil _
      | copy =>
          refine ⟨s, g, ?_, ?_, ?_, h.inv, h.counted⟩
          · rw [performAll_concat, h.object]
            rfl
          · rw [reading_concat, h.read]
            rfl
          · rw [accesses_concat, h.logged]
            exact List.append_nil _

/-- Whatever steps of the sections interleave, and whenever the clock is read. -/
theorem reports_accurate (clock : TTimestamp)
    (events : List (ReadersWriter.Event (Fin nthreads) Operation))
    (s : ReadersWriter.State (Fin nthreads) Operation Shared Outcome)
    (hrun : exec (ReadersWriter.step call) (ReadersWriter.start ⟨.make, clock⟩) events = some s) :
    Accurate clock s := by
  obtain ⟨hserial, hobject⟩ := serial_of_run hrun
  have hbefore (pre : History nthreads)
      (entry : ReadersWriter.Entry (Fin nthreads) Operation Outcome) (post : History nthreads)
      (hsplit : s.finished = pre ++ entry :: post) :
      entry.result = (perform (performAll clock pre) entry.op).2 := by
    rw [hserial pre entry post hsplit, run_call, after_eq]
  refine ⟨fun pre i key isRead time result post hsplit => ?_, fun pre i result post hsplit => ?_,
    fun hreaders => ?_⟩
  · obtain ⟨t, g, h⟩ := exists_explains clock pre
    have hresult := hbefore pre _ post hsplit
    rw [h.object] at hresult
    rw [h.logged, h.read, valuesAt_concat_self, tally_concat, ← h.counted.byKey]
    exact hresult
  · obtain ⟨t, g, h⟩ := exists_explains clock pre
    have hresult := hbefore pre _ post hsplit
    rw [h.object] at hresult
    have hreport : t.stat.framedStat = tally (g.window t) := h.inv.frame ▸ h.inv.framed
    rw [h.logged, h.read, ← h.inv.frameDuration]
    refine hresult.trans ?_
    show Outcome.report ⟨t.stat.framedStat, t.stat.globalStat⟩ = _
    rw [hreport, h.inv.global]
    rfl
  · obtain ⟨t, g, h⟩ := exists_explains clock s.finished
    have hstat : s.object.stat = t.stat := by
      rw [hobject hreaders, after_eq, h.object]
    rw [h.logged, h.read, hstat, ← h.inv.frameDuration]
    exact ⟨h.inv.global, h.inv.frame, h.inv.framed, h.counted.byKey⟩

/-- Thread `i` logs a read, and six seconds later `j` a write that takes it from the frame; a
report of `i` waits for the lock meanwhile. -/
def sixSeconds (i j : Fin nthreads) : List (ReadersWriter.Event (Fin nthreads) Operation) :=
  List.flatten [
    [.call i (.logAccess [107] true ⟨0⟩), .call j (.logAccess [107] false ⟨6000000000⟩), .lock i],
    List.replicate 7 (.act i), [.unlock i, .lock j, .act j, .call i .copy],
    List.replicate 9 (.act j), [.unlock j, .lock i, .act i, .act i, .unlock i]]

theorem reports_accurate_sixSeconds :
    ∃ s : ReadersWriter.State (Fin 2) Operation Shared Outcome,
      exec (ReadersWriter.step call) (ReadersWriter.start ⟨.make, ⟨0⟩⟩) (sixSeconds 0 1) = some s ∧
      s.finished.map ReadersWriter.Entry.result =
        [.access ⟨[107], ⟨1, 0⟩⟩, .access ⟨[107], ⟨1, 1⟩⟩, .report ⟨⟨0, 1⟩, ⟨1, 1⟩⟩] ∧
      Accurate ⟨0⟩ s := by
  have hrun : ∃ s : ReadersWriter.State (Fin 2) Operation Shared Outcome,
      exec (ReadersWriter.step call) (ReadersWriter.start ⟨.make, ⟨0⟩⟩) (sixSeconds 0 1) =
        some s ∧
      s.finished.map ReadersWriter.Entry.result =
        [.access ⟨[107], ⟨1, 0⟩⟩, .access ⟨[107], ⟨1, 1⟩⟩, .report ⟨⟨0, 1⟩, ⟨1, 1⟩⟩] :=
    ⟨_, rfl, rfl⟩
  obtain ⟨s, hs, hresults⟩ := hrun
  exact ⟨s, hs, hresults, reports_accurate ⟨0⟩ _ s hs⟩

end GJServer.Logging.Locked
