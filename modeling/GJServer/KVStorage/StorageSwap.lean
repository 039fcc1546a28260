import GJServer.KVStorage.StorageFile
import GJServer.Library.Exec

/-!
Replacing the storage file (`TKVStorageFile::UpdateFile`, `StoreFile` and
`ChangeStorageFile` of `kvstorage/kvstoragefile.cpp`), one system call at a time.

The new text is written to a file beside the old one; then the old file is
renamed away, the new one is renamed into its place, and the old one is removed.
Every call may fail, and the process may be killed between any two of them.
-/

namespace GJServer.KVStorage.Swap

open Library Exec
open Net (Str)

/-- What the three names hold. -/
structure Disk where
  live : Option Str
  new : Option Str
  old : Option Str
  deriving DecidableEq

/-- The next system call of a running `UpdateFile`. -/
inductive Phase
  | openNew (items : List Item)
  | write (items : List Item)
  | renameLive
  | renameNew
  | removeOld
  deriving DecidableEq

inductive Status
  | returned
  | running (phase : Phase)
  | killed
  deriving DecidableEq

/-- The directory and the running call. `before` is what `m_filepath` held when
the last call began and `text` what that call is to store; `reports` are the
messages logged as errors. -/
structure State where
  disk : Disk
  status : Status
  before : Option Str
  text : Str
  reports : List String
  deriving DecidableEq

inductive Event
  | call (items : List Item)
  | ok
  | fail (message : String)
  | kill
  | restart
  deriving DecidableEq

/-- The process runs and has loaded `text`; earlier runs may have left anything
beside the storage file. -/
def start (text : Str) (new old : Option Str) : State where
  disk := ⟨some text, new, old⟩
  status := .returned
  before := some text
  text := text
  reports := []

/-- `UpdateFile` reports a step that returned `false` and returns. -/
def State.giveUp (s : State) (report : String) : State :=
  { s with status := .returned, reports := s.reports ++ [report, "KV file sync failed"] }

def State.goto (s : State) (disk : Disk) (phase : Phase) : State :=
  { s with disk := disk, status := .running phase }

def notFound : String := "No such file or directory"

/-- One system call that meets no fault from outside. A rename needs its source
and replaces its target; `remove` says whether there was a file. -/
def stepOk (s : State) : Phase → State
  | .openNew items => s.goto { s.disk with new := some [] } (.write items)
  | .write items => s.goto { s.disk with new := some (storeText items) } .renameLive
  | .renameLive =>
      match s.disk.live with
      | some text => s.goto { s.disk with live := none, old := some text } .renameNew
      | none => s.giveUp ("KV old file rename failed. Errno: " ++ notFound)
  | .renameNew =>
      match s.disk.new with
      | some text => s.goto { s.disk with live := some text, new := none } .removeOld
      | none => s.giveUp ("KV file rename failed. Errno: " ++ notFound)
  | .removeOld =>
      match s.disk.old with
      | some _ => { s with disk := { s.disk with old := none }, status := .returned }
      | none => s.giveUp "KV old file rm failed."

/-- One system call that fails. Writes are taken to succeed, and `remove` has no
`error_code` argument: it throws, and nobody catches the exception. -/
def stepFail (path message : String) (s : State) : Phase → Option State
  | .openNew _ => some (s.giveUp ("KV file create failed. Path: " ++ path ++ ".new"))
  | .write _ => none
  | .renameLive => some (s.giveUp ("KV old file rename failed. Errno: " ++ message))
  | .renameNew => some (s.giveUp ("KV file rename failed. Errno: " ++ message))
  | .removeOld => some { s with status := .killed }

/-- A restarted process goes on only if it can load the storage file. -/
def step (path : String) (s : State) (e : Event) : Option State :=
  match s.status, e with
  | .returned, .call items =>
      some { s with status := .running (.openNew items), before := s.disk.live
                    text := storeText items }
  | .running phase, .ok => some (stepOk s phase)
  | .running phase, .fail message => stepFail path message s phase
  | .returned, .kill => some { s with status := .killed }
  | .running _, .kill => some { s with status := .killed }
  | .killed, .restart => if s.disk.live.isSome then some { s with status := .returned } else none
  | _, _ => none

/-- Wherever `UpdateFile` has returned or the process was killed, `m_filepath`
holds the whole text from before the call or the whole text of the call. -/
def Intact (s : State) : Prop :=
  (∃ phase, s.status = .running phase) ∨
    ∃ text, s.disk.live = some text ∧ (s.before = some text ∨ s.text = text)

/-- Between the two renames no file is at `m_filepath`: the step taken there
must be the second rename, and it must succeed. -/
def GapClosed (s : State) (e : Event) : Prop :=
  s.status = .running .renameNew → e = .ok

/-- What holds before each system call. -/
def PhaseInv (s : State) : Phase → Prop
  | .openNew items => s.text = storeText items ∧ s.before.isSome ∧ s.disk.live = s.before
  | .write items => s.text = storeText items ∧ s.before.isSome ∧ s.disk.live = s.before
  | .renameLive => s.disk.new = some s.text ∧ s.before.isSome ∧ s.disk.live = s.before
  | .renameNew => s.disk.new = some s.text ∧ s.disk.live = none
  | .removeOld => s.disk.live = some s.text

def Inv (s : State) : Prop :=
  match s.status with
  | .running phase => PhaseInv s phase
  | _ => ∃ text, s.disk.live = some text ∧ (s.before = some text ∨ s.text = text)

theorem intact_of_inv {s : State} (h : Inv s) : Intact s := by
  unfold Inv at h
  cases hstatus : s.status with
  | running phase => exact Or.inl ⟨phase, hstatus⟩
  | returned => exact Or.inr (by simpa only [hstatus] using h)
  | killed => exact Or.inr (by simpa only [hstatus] using h)

theorem inv_start (text : Str) (new old : Option Str) : Inv (start text new old) :=
  ⟨text, rfl, Or.inl rfl⟩

/-- Before the first rename the file of the last call is still in its place. -/
theorem untouched {s : State} (hbefore : s.before.isSome) (hlive : s.disk.live = s.before) :
    ∃ text, s.disk.live = some text ∧ (s.before = some text ∨ s.text = text) := by
  obtain ⟨text, htext⟩ := Option.isSome_iff_exists.mp hbefore
  exact ⟨text, hlive.trans htext, Or.inl htext⟩

theorem inv_stepOk {s : State} {phase : Phase} (h : PhaseInv s phase) : Inv (stepOk s phase) := by
  cases phase with
  | openNew items => exact h
  | write items =>
      obtain ⟨htext, hbefore, hlive⟩ := h
      exact ⟨congrArg some htext.symm, hbefore, hlive⟩
  | renameLive =>
      obtain ⟨hnew, hbefore, hlive⟩ := h
      obtain ⟨text, htext⟩ := Option.isSome_iff_exists.mp hbefore
      rw [stepOk, hlive, htext]
      exact ⟨hnew, rfl⟩
  | renameNew =>
      rw [stepOk, h.1]
      exact rfl
  | removeOld =>
      rw [stepOk]
      split
      · exact ⟨s.text, h, Or.inr rfl⟩
      · exact ⟨s.text, h, Or.inr rfl⟩

theorem inv_stepFail {path message : String} {s s' : State} {phase : Phase}
    (h : PhaseInv s phase) (hgap : phase ≠ .renameNew)
    (hstep : stepFail path message s phase = some s') : Inv s' := by
  cases phase with
  | openNew items =>
      obtain rfl := Option.some.inj hstep
      exact untouched h.2.1 h.2.2
  | write items => cases hstep
  | renameLive =>
      obtain rfl := Option.some.inj hstep
      exact untouched h.2.1 h.2.2
  | renameNew => exact absurd rfl hgap
  | removeOld =>
      obtain rfl := Option.some.inj hstep
      exact ⟨s.text, h, Or.inr rfl⟩

/-- Outside the gap a kill finds a whole file. -/
theorem inv_kill {s : State} {phase : Phase} (h : PhaseInv s phase) (hgap : phase ≠ .renameNew) :
    Inv { s with status := .killed } := by
  cases phase with
  | openNew items => exact untouched h.2.1 h.2.2
  | write items => exact untouched h.2.1 h.2.2
  | renameLive => exact untouched h.2.1 h.2.2
  | renameNew => exact absurd rfl hgap
  | removeOld => exact ⟨s.text, h, Or.inr rfl⟩

theorem inv_step {path : String} {s s' : State} {e : Event} (h : Inv s) (hgap : GapClosed s e)
    (hstep : step path s e = some s') : Inv s' := by
  unfold step at hstep
  unfold Inv at h
  split at hstep
  · next items hstatus =>
      obtain ⟨text, hlive, -⟩ := by simpa only [hstatus] using h
      obtain rfl := Option.some.inj hstep
      exact ⟨rfl, Option.isSome_iff_exists.mpr ⟨text, hlive⟩, rfl⟩
  · next phase hstatus =>
      obtain rfl := Option.some.inj hstep
      exact inv_stepOk (by simpa only [hstatus] using h)
  · next phase message hstatus =>
      refine inv_stepFail (by simpa only [hstatus] using h) ?_ hstep
      rintro rfl
      cases hgap hstatus
  · next hstatus =>
      obtain rfl := Option.some.inj hstep
      simpa only [hstatus, Inv] using h
  · next phase hstatus =>
      obtain rfl := Option.some.inj hstep
      refine inv_kill (by simpa only [hstatus] using h) ?_
      rintro rfl
      cases hgap hstatus
  · next hstatus =>
      split at hstep
      · obtain rfl := Option.some.inj hstep
        simpa only [hstatus, Inv] using h
      · cases hstep
  · cases hstep

/-- Any other step taken in the gap leaves no file behind. -/
theorem not_intact_of_gap {path : String} {s s' : State} {e : Event} (h : Inv s)
    (hgap : ¬GapClosed s e) (hstep : step path s e = some s') : ¬Intact s' := by
  simp only [GapClosed, Classical.not_imp] at hgap
  obtain ⟨hstatus, he⟩ := hgap
  have hlive : s.disk.live = none := by
    simp only [Inv, hstatus] at h
    exact h.2
  have hnone {t : State} (hdisk : t.disk = s.disk) (hstopped : ∀ phase, t.status ≠ .running phase) :
      ¬Intact t := by
    rintro (⟨phase, hphase⟩ | ⟨text, htext, -⟩)
    · exact hstopped phase hphase
    · rw [hdisk, hlive] at htext
      cases htext
  -- a call that fails and a kill both leave the directory as it is
  cases e with
  | ok => exact absurd rfl he
  | fail message =>
      simp only [step, hstatus, stepFail, Option.some.injEq] at hstep
      subst hstep
      exact hnone rfl fun phase hphase => by cases hphase
  | kill =>
      simp only [step, hstatus, Option.some.injEq] at hstep
      subst hstep
      exact hnone rfl fun phase hphase => by cases hphase
  | call items => simp [step, hstatus] at hstep
  | restart => simp [step, hstatus] at hstep

/-- Along a run of calls the storage file is replaced atomically exactly when
each call that has renamed the old file away goes on to rename the new one. -/
theorem intact_along_iff (path : String) (text : Str) (new old : Option Str)
    (events : List Event) (s : State)
    (hrun : exec (step path) (start text new old) events = some s) :
    Along (step path) Intact (start text new old) events ↔
      StepsMeet (step path) GapClosed (start text new old) events :=
  along_iff_stepsMeet (fun _ => intact_of_inv) (fun _ _ _ => inv_step)
    (fun _ _ _ => not_intact_of_gap) (inv_start text new old) hrun

/-- A call that meets no fault puts the new text in the place of the old one and
leaves nothing beside it. -/
theorem exec_faultless (path : String) {s : State} (items : List Item)
    (hstatus : s.status = .returned) (hlive : s.disk.live.isSome) :
    ∃ s', exec (step path) s [.call items, .ok, .ok, .ok, .ok, .ok] = some s' ∧
      s'.status = .returned ∧ s'.disk = ⟨some (storeText items), none, none⟩ := by
  obtain ⟨text, htext⟩ := Option.isSome_iff_exists.mp hlive
  simp [exec_cons, step, stepOk, State.goto, hstatus, htext]

/-- The second rename fails: `UpdateFile` returns, and no file is at
`m_filepath`. -/
theorem second_rename_fails :
    ¬∀ events s, exec (step "kvfile.txt") (start [] none none) events = some s →
      Along (step "kvfile.txt") Intact (start [] none none) events := by
  intro h
  have hrun : ∃ s, exec (step "kvfile.txt") (start [] none none)
      [.call [], .ok, .ok, .ok, .fail "Permission denied"] = some s ∧
        s.status = .returned ∧ s.disk.live = none := ⟨_, rfl, rfl, rfl⟩
  obtain ⟨s, hs, hstatus, hlive⟩ := hrun
  rcases (h _ s hs).last hs with ⟨phase, hphase⟩ | ⟨text, htext, -⟩
  · rw [hstatus] at hphase
    cases hphase
  · rw [hlive] at htext
    cases htext

theorem intact_along_faultless :
    Along (step "kvfile.txt") Intact (start [] none none)
        [.call [⟨[97], [98]⟩], .ok, .ok, .ok, .ok, .ok] ↔
      StepsMeet (step "kvfile.txt") GapClosed (start [] none none)
        [.call [⟨[97], [98]⟩], .ok, .ok, .ok, .ok, .ok] :=
  intact_along_iff "kvfile.txt" [] none none _ _ rfl

end GJServer.KVStorage.Swap
