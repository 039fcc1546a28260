import GJServer.Library.Exec
import GJServer.Library.Window
import GJServer.Net.Proto
import GJServer.Utils.Time
import Mathlib.Data.Finmap

/-!
The statistics of the server (`logging/stat.h`, `logging/stat.cpp`).

The counters are `uint32_t` and wrap around. `LogAccess` is one critical section under
the exclusive lock; `ReportGlobalStat` is two, an exclusive one that clears the frame and
a shared one that copies the counters, and other calls can come in between.
-/

namespace GJServer.Logging

open Library Exec Net Utils

structure TKeyStat where
  nread : UInt32
  nwrite : UInt32
  deriving DecidableEq, Repr

namespace TKeyStat

def zero : TKeyStat := ⟨0, 0⟩

def increment (stat : TKeyStat) (isRead : Bool) : TKeyStat :=
  if isRead then { stat with nread := stat.nread + 1 }
  else { stat with nwrite := stat.nwrite + 1 }

def decrement (stat : TKeyStat) (isRead : Bool) : TKeyStat :=
  if isRead then { stat with nread := stat.nread - 1 }
  else { stat with nwrite := stat.nwrite - 1 }

def lines (stat : TKeyStat) : String :=
  "Reads: " ++ toString stat.nread.toNat ++ "\n" ++
    "Writes: " ++ toString stat.nwrite.toNat ++ "\n"

end TKeyStat

/-- What `m_frame` keeps of an access: its time, and whether it was a read. -/
abbrev Entry := TTimestamp × Bool

structure TStat where
  globalStatByKey : Finmap fun _ : Str => TKeyStat
  globalStat : TKeyStat
  framedStat : TKeyStat
  frame : List Entry
  frameDuration : TDuration

namespace TStat

def DEFAULT_FRAME_DURATION : TDuration := .Seconds 5

/-- The members as the constructor initializes them. -/
def make : TStat where
  globalStatByKey := ∅
  globalStat := .zero
  framedStat := .zero
  frame := []
  frameDuration := DEFAULT_FRAME_DURATION

/-- The loop of `ClearStatFrame` on `m_frame` and `m_framedStat`. -/
def clearFrame (frameDuration : TDuration) (now : TTimestamp) :
    List Entry → TKeyStat → List Entry × TKeyStat
  | [], framedStat => ([], framedStat)
  | front :: frame, framedStat =>
      let diff := now - front.1
      if diff < frameDuration then (front :: frame, framedStat)
      else clearFrame frameDuration now frame (framedStat.decrement front.2)

def clearStatFrame (stat : TStat) (now : TTimestamp) : TStat :=
  let cleared := clearFrame stat.frameDuration now stat.frame stat.framedStat
  { stat with frame := cleared.1, framedStat := cleared.2 }

/-- The part of `LogAccess` under the lock, with the copy of the counters of the key. -/
def logAccess (stat : TStat) (key : Str) (isRead : Bool) (now : TTimestamp) :
    TStat × TKeyStat :=
  let stat := stat.clearStatFrame now
  -- a key that is not there is entered with both counters zero
  let byKey := ((stat.globalStatByKey.lookup key).getD .zero).increment isRead
  ({ stat with
      globalStatByKey := stat.globalStatByKey.insert key byKey
      globalStat := stat.globalStat.increment isRead
      framedStat := stat.framedStat.increment isRead
      frame := stat.frame ++ [(now, isRead)] }, byKey)

end TStat

/-- What a call of `LogAccess` prints. -/
structure AccessReport where
  key : Str
  stat : TKeyStat
  deriving DecidableEq

def AccessReport.text (report : AccessReport) : Str :=
  "$$$ SERVER Key: ".toUTF8.toList ++ report.key ++ " ###\n".toUTF8.toList ++
    report.stat.lines.toUTF8.toList

/-- What a call of `ReportGlobalStat` prints. -/
structure GlobalReport where
  frame : TKeyStat
  global : TKeyStat
  deriving DecidableEq

def GlobalReport.text (report : GlobalReport) : String :=
  "### SERVER: Frame stat ###\n" ++ report.frame.lines ++
    "### Global stat ###\n" ++ report.global.lines

/-! ### Runs -/

/-- `clock` is the last reading of the clock, `reporting` the number of calls of
`ReportGlobalStat` that are between their two sections. -/
structure State where
  stat : TStat
  clock : TTimestamp
  reporting : ℕ
  accessReports : List AccessReport
  globalReports : List GlobalReport

inductive Event
  | logAccess (key : Str) (isRead : Bool) (now : TTimestamp)
  | reportClear (now : TTimestamp)
  | reportCopy

def start (clock : TTimestamp) : State where
  stat := .make
  clock := clock
  reporting := 0
  accessReports := []
  globalReports := []

/-- The clock is read under the exclusive lock, and it does not go back. -/
def step (s : State) : Event → Option State
  | .logAccess key isRead now =>
      if s.clock ≤ now then
        let logged := s.stat.logAccess key isRead now
        some { s with
          stat := logged.1
          clock := now
          accessReports := s.accessReports ++ [⟨key, logged.2⟩] }
      else none
  | .reportClear now =>
      if s.clock ≤ now then
        some { s with
          stat := s.stat.clearStatFrame now, clock := now, reporting := s.reporting + 1 }
      else none
  | .reportCopy =>
      if 0 < s.reporting then
        some { s with
          reporting := s.reporting - 1
          globalReports := s.globalReports ++ [⟨s.stat.framedStat, s.stat.globalStat⟩] }
      else none

/-- Everything an event can do. -/
inductive Step (s : State) : Event → State → Prop
  | logAccess (key isRead now) (hnow : s.clock ≤ now) :
      Step s (.logAccess key isRead now) { s with
        stat := (s.stat.logAccess key isRead now).1
        clock := now
        accessReports := s.accessReports ++ [⟨key, (s.stat.logAccess key isRead now).2⟩] }
  | reportClear (now) (hnow : s.clock ≤ now) :
      Step s (.reportClear now) { s with
        stat := s.stat.clearStatFrame now, clock := now, reporting := s.reporting + 1 }
  | reportCopy (hreporting : 0 < s.reporting) :
      Step s .reportCopy { s with
        reporting := s.reporting - 1
        globalReports := s.globalReports ++ [⟨s.stat.framedStat, s.stat.globalStat⟩] }

theorem step_cases {s s' : State} {e : Event} (h : step s e = some s') : Step s e s' := by
  cases e with
  | logAccess key isRead now =>
      rw [step, Option.ite_none_right_eq_some, Option.some.injEq] at h
      obtain ⟨hnow, rfl⟩ := h
      exact .logAccess key isRead now hnow
  | reportClear now =>
      rw [step, Option.ite_none_right_eq_some, Option.some.injEq] at h
      obtain ⟨hnow, rfl⟩ := h
      exact .reportClear now hnow
  | reportCopy =>
      rw [step, Option.ite_none_right_eq_some, Option.some.injEq] at h
      obtain ⟨hreporting, rfl⟩ := h
      exact .reportCopy hreporting

end GJServer.Logging
