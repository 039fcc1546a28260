import GJServer.KVStorage.StorageSwap

/-!
What a failed replacement of the storage file leaves for the next one. The first
rename of a call needs a file at `m_filepath`. Once a call has ended between its two
renames there is none, and since nothing but the second rename makes one, no later
call gets past the first.
-/

namespace GJServer.KVStorage.Swap

open Library Exec
open Net (Str)

/-- `UpdateFile` on `items`, when nothing fails but what the directory makes fail,
returns with the whole text of `items` at `m_filepath`. -/
def Recovers (path : String) (s : State) (items : List Item) : Prop :=
  ∃ n s', exec (step path) s (.call items :: List.replicate n .ok) = some s' ∧
    s'.status = .returned ∧ s'.disk.live = some (storeText items)

/-- No file is at `m_filepath`, and no call is past its first rename. -/
structure Lost (s : State) : Prop where
  live : s.disk.live = none
  renameNew : s.status ≠ .running .renameNew
  removeOld : s.status ≠ .running .removeOld

/-- The running call is past its first rename. -/
def Status.pastRename : Status → Bool
  | .running .renameNew | .running .removeOld => true
  | _ => false

variable {path : String} {s s' : State} {e : Event}

theorem lost_of_status (hlive : s.disk.live = none) (hstatus : s.status.pastRename = false) :
    Lost s where
  live := hlive
  renameNew h := by
    rw [h] at hstatus
    cases hstatus
  removeOld h := by
    rw [h] at hstatus
    cases hstatus

theorem not_inv_of_lost (h : Lost s) : ¬Inv s := by
  intro hinv
  unfold Inv at hinv
  split at hinv
  · next phase hstatus =>
      cases phase with
      | openNew items =>
          obtain ⟨-, hbefore, hlive⟩ := hinv
          rw [← hlive, h.live] at hbefore
          cases hbefore
      | write items =>
          obtain ⟨-, hbefore, hlive⟩ := hinv
          rw [← hlive, h.live] at hbefore
          cases hbefore
      | renameLive =>
          obtain ⟨-, hbefore, hlive⟩ := hinv
          rw [← hlive, h.live] at hbefore
          cases hbefore
      | renameNew => exact h.renameNew hstatus
      | removeOld => exact h.removeOld hstatus
  · obtain ⟨text, hlive, -⟩ := hinv
    rw [h.live] at hlive
    cases hlive

/-- A step in the gap that is not the second rename leaves no file behind. -/
theorem lost_of_gap (h : Inv s) (hgap : ¬GapClosed s e) (hstep : step path s e = some s') :
    Lost s' := by
  simp only [GapClosed, Classical.not_imp] at hgap
  obtain ⟨hstatus, he⟩ := hgap
  have hlive : s.disk.live = none := by
    simp only [Inv, hstatus] at h
    exact h.2
  cases e with
  | ok => exact absurd rfl he
  | fail message =>
      simp only [step, hstatus, stepFail, Option.some.injEq] at hstep
      subst hstep
      exact lost_of_status hlive rfl
  | kill =>
      simp only [step, hstatus, Option.some.injEq] at hstep
      subst hstep
      exact lost_of_status hlive rfl
  | call items => simp [step, hstatus] at hstep
  | restart => simp [step, hstatus] at hstep

theorem lost_stepOk (h : Lost s) {phase : Phase} (hstatus : s.status = .running phase) :
    Lost (stepOk s phase) := by
  cases phase with
  | openNew items => exact lost_of_status h.live rfl
  | write items => exact lost_of_status h.live rfl
  | renameLive =>
      rw [stepOk, h.live]
      exact lost_of_status h.live rfl
  | renameNew => exact absurd hstatus h.renameNew
  | removeOld => exact absurd hstatus h.removeOld

theorem lost_stepFail (h : Lost s) {message : String} {phase : Phase}
    (hstep : stepFail path message s phase = some s') : Lost s' := by
  cases phase with
  | write items => cases hstep
  | openNew items =>
      obtain rfl := Option.some.inj hstep
      exact lost_of_status h.live rfl
  | renameLive =>
      obtain rfl := Option.some.inj hstep
      exact lost_of_status h.live rfl
  | renameNew =>
      obtain rfl := Option.some.inj hstep
      exact lost_of_status h.live rfl
  | removeOld =>
      obtain rfl := Option.some.inj hstep
      exact lost_of_status h.live rfl

/-- Nothing brings the file back. -/
theorem lost_step (h : Lost s) (hstep : step path s e = some s') : Lost s' := by
  unfold step at hstep
  split at hstep
  · obtain rfl := Option.some.inj hstep
    exact lost_of_status h.live rfl
  · next phase hstatus =>
      obtain rfl := Option.some.inj hstep
      exact lost_stepOk h hstatus
  · exact lost_stepFail h hstep
  · obtain rfl := Option.some.inj hstep
    exact lost_of_status h.live rfl
  · obtain rfl := Option.some.inj hstep
    exact lost_of_status h.live rfl
  · -- a process that is started again cannot load the file
    rw [h.live] at hstep
    cases hstep
  · cases hstep

/-- A step keeps the file in the hands of the calls exactly when it does not leave
the gap open. -/
theorem inv_step_iff (h : Inv s ∨ Lost s) (hstep : step path s e = some s') :
    Inv s' ↔ Inv s ∧ GapClosed s e := by
  rcases h with h | h
  · constructor
    · intro hinv
      refine ⟨h, ?_⟩
      by_contra hgap
      exact not_inv_of_lost (lost_of_gap h hgap hstep) hinv
    · rintro ⟨-, hgap⟩
      exact inv_step h hgap hstep
  · exact iff_of_false (not_inv_of_lost (lost_step h hstep)) fun hinv => not_inv_of_lost h hinv.1

theorem inv_or_lost_step (h : Inv s ∨ Lost s) (hstep : step path s e = some s') :
    Inv s' ∨ Lost s' := by
  rcases h with h | h
  · by_cases hgap : GapClosed s e
    · exact Or.inl (inv_step h hgap hstep)
    · exact Or.inr (lost_of_gap h hgap hstep)
  · exact Or.inr (lost_step h hstep)

theorem recovers_iff_live (hreturned : s.status = .returned) (items : List Item) :
    Recovers path s items ↔ s.disk.live.isSome := by
  constructor
  · rintro ⟨n, s', hrun, -, hlive'⟩
    by_contra hnone
    rw [Bool.not_eq_true, Option.isSome_eq_false_iff, Option.isNone_iff_eq_none] at hnone
    have hlost : Lost s := by
      exact lost_of_status hnone (by rw [hreturned]; rfl)
    have hlost' : Lost s' := exec_invariant (fun _ _ _ => lost_step) hlost hrun
    rw [hlost'.live] at hlive'
    cases hlive'
  · intro hlive
    obtain ⟨s', hrun, hstatus, hdisk⟩ := exec_faultless path items hreturned hlive
    exact ⟨5, s', hrun, hstatus, by rw [hdisk]⟩

/-- After any sequence of calls, some of which may have failed, the next one replaces
the file exactly when each of them that has renamed it away has renamed the new one
into its place. -/
theorem recovers_iff (path : String) (text : Str) (new old : Option Str)
    (events : List Event) (s : State)
    (hrun : exec (step path) (start text new old) events = some s)
    (hreturned : s.status = .returned) (items : List Item) :
    Recovers path s items ↔ StepsMeet (step path) GapClosed (start text new old) events := by
  have hstart : Inv (start text new old) := inv_start text new old
  have hgood := good_iff_stepsMeet (L := fun _ => True)
    (fun _ _ _ h _ hstep => inv_or_lost_step h hstep) (fun _ _ _ => inv_step_iff)
    (Or.inl hstart) (fun _ _ => trivial) hrun
  have hend := exec_invariant (fun _ _ _ => inv_or_lost_step) (Or.inl hstart) hrun
  rw [recovers_iff_live hreturned, ← hgood.trans (and_iff_right hstart)]
  constructor
  · intro hlive
    refine hend.resolve_right fun hlost => ?_
    rw [hlost.live] at hlive
    cases hlive
  · intro hinv
    simp only [Inv, hreturned] at hinv
    obtain ⟨live, hlive, -⟩ := hinv
    rw [hlive]
    rfl

/-- The second rename of one call fails, and no later call stores anything. -/
theorem transient_failure_is_final :
    ∃ s, exec (step "kvfile.txt") (start [] none none)
        [.call [], .ok, .ok, .ok, .fail "Permission denied"] = some s ∧
      s.status = .returned ∧ ∀ items, ¬Recovers "kvfile.txt" s items := by
  refine ⟨_, rfl, rfl, fun items hrecovers => ?_⟩
  have hlive := (recovers_iff_live rfl items).mp hrecovers
  cases hlive

/-- A call whose first rename has failed is made up for by the next. -/
theorem recovers_after_first_rename :
    Recovers "kvfile.txt"
        ⟨⟨some [], some [97, 32, 98, 10], none⟩, .returned, some [], [97, 32, 98, 10],
          ["KV old file rename failed. Errno: Permission denied", "KV file sync failed"]⟩
        [⟨[99], [100]⟩] ↔
      StepsMeet (step "kvfile.txt") GapClosed (start [] none none)
        [.call [⟨[97], [98]⟩], .ok, .ok, .fail "Permission denied"] :=
  recovers_iff "kvfile.txt" [] none none _ _ rfl rfl _

end GJServer.KVStorage.Swap
