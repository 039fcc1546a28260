import GJServer.Library.Exec
import Mathlib.Algebra.Ring.Nat

/-!
Forward simulation between two labelled systems.

A step of the lower system is matched by a run of the upper one, which may be empty:
the lower system may take many steps where the upper one takes one, or take steps that
the upper one does not see. A measure may go along that no step increases and that the
steps that cost something use up; then a run cannot contain more of them than the
measure allows at its start.
-/

namespace Library.Exec

variable {σ α τ β : Type*} {stepC : σ → α → Option σ} {stepA : τ → β → Option τ}

/-- `R` is kept by every step below and some steps above, and the step pays its cost out
of the measure. -/
def Simulates (stepC : σ → α → Option σ) (stepA : τ → β → Option τ) (R : σ → τ → Prop)
    (measure : σ → τ → ℕ) (cost : α → ℕ) : Prop :=
  ∀ s t a s', R s t → stepC s a = some s' →
    ∃ u t', exec stepA t u = some t' ∧ R s' t' ∧ measure s' t' + cost a ≤ measure s t

variable {R : σ → τ → Prop} {measure : σ → τ → ℕ} {cost : α → ℕ}

/-- Every run below is matched by a run above. -/
theorem Simulates.run (h : Simulates stepC stepA R measure cost) {s s' : σ} {t : τ}
    {events : List α} (hR : R s t) (hrun : exec stepC s events = some s') :
    ∃ u t', exec stepA t u = some t' ∧ R s' t' ∧
      measure s' t' + (events.map cost).sum ≤ measure s t := by
  induction events generalizing s t with
  | nil =>
      rw [exec_nil, Option.some.injEq] at hrun
      subst hrun
      exact ⟨[], t, rfl, hR, Nat.le_refl _⟩
  | cons a events ih =>
      obtain ⟨m, hm, hrest⟩ := exec_cons_eq_some.mp hrun
      obtain ⟨u, n, hu, hRm, hcost⟩ := h s t a m hR hm
      obtain ⟨v, t', hv, hR', hsum⟩ := ih hRm hrest
      refine ⟨u ++ v, t', exec_append_eq_some.mpr ⟨n, hu, hv⟩, hR', ?_⟩
      rw [List.map_cons, List.sum_cons]
      omega

/-- The invariants of the upper system may be used to establish a simulation. -/
theorem simulates_of_invariant {I : τ → Prop}
    (hI : ∀ t b t', I t → stepA t b = some t' → I t')
    (hstep : ∀ s t a s', R s t → I t → stepC s a = some s' →
      ∃ u t', exec stepA t u = some t' ∧ R s' t' ∧ measure s' t' + cost a ≤ measure s t) :
    Simulates stepC stepA (fun s t => R s t ∧ I t) measure cost := by
  rintro s t a s' ⟨hR, ht⟩ hs
  obtain ⟨u, t', hu, hR', hcost⟩ := hstep s t a s' hR ht hs
  exact ⟨u, t', hu, ⟨hR', exec_invariant hI ht hu⟩, hcost⟩

/-- If only steps that meet a side condition are matched, runs of such steps are. -/
theorem exists_run_of_stepsMeet {cond : σ → α → Prop}
    (h : ∀ s t a s', R s t → cond s a → stepC s a = some s' →
      ∃ u t', exec stepA t u = some t' ∧ R s' t')
    {s s' : σ} {t : τ} {events : List α} (hR : R s t) (hmeet : StepsMeet stepC cond s events)
    (hrun : exec stepC s events = some s') : ∃ u t', exec stepA t u = some t' ∧ R s' t' := by
  induction events generalizing s t with
  | nil =>
      rw [exec_nil, Option.some.injEq] at hrun
      subst hrun
      exact ⟨[], t, rfl, hR⟩
  | cons a events ih =>
      obtain ⟨m, hm, hrest⟩ := exec_cons_eq_some.mp hrun
      obtain ⟨u, n, hu, hRm⟩ := h s t a m hR hmeet.1 hm
      obtain ⟨v, t', hv, hR'⟩ := ih hRm (hmeet.2 m hm) hrest
      exact ⟨u ++ v, t', exec_append_eq_some.mpr ⟨n, hu, hv⟩, hR'⟩

/-- Steps that use up a measure, and are possible until the work is done, get it done. -/
theorem exists_run_of_progress (stepC : σ → α → Option σ) (left : σ → ℕ → Prop)
    (done : σ → Prop)
    (hstep : ∀ s n, left s n → ¬done s → ∃ a s' m, stepC s a = some s' ∧ left s' m ∧ m < n)
    {s : σ} {n : ℕ} (hleft : left s n) :
    ∃ t s', exec stepC s t = some s' ∧ (∃ m, left s' m) ∧ done s' := by
  induction n using Nat.strongRecOn generalizing s with
  | ind n ih =>
      by_cases hdone : done s
      · exact ⟨[], s, rfl, ⟨n, hleft⟩, hdone⟩
      · obtain ⟨a, m, k, hm, hk, hlt⟩ := hstep s n hleft hdone
        obtain ⟨t, s', hrun, hleft', hdone'⟩ := ih k hlt hk
        exact ⟨a :: t, s', exec_cons_eq_some.mpr ⟨m, hm, hrun⟩, hleft', hdone'⟩

end Library.Exec
