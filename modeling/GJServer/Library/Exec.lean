import Mathlib.Data.List.Induction

/-!
Executions of a labelled step function.

A system is a function `step : σ → α → Option σ`: the label says which party
moves and resolves every choice the environment makes, and `none` says that
the move is not possible in that state. A run is then a list of labels, and
a statement about every run and every interleaving is a statement about every
list of labels that `exec` accepts.

The rules below are the ones a proof about runs uses: splitting a run, adding
one step at its end, carrying an invariant along it, and carrying an invariant
along the runs whose steps all meet a side condition.
-/

namespace Library.Exec

variable {σ α : Type*} {step : σ → α → Option σ}

/-- Takes the labels in order, and is `none` as soon as one is refused. -/
def exec (step : σ → α → Option σ) : σ → List α → Option σ
  | s, [] => some s
  | s, a :: t => (step s a).bind fun m => exec step m t

@[simp] theorem exec_nil (s : σ) : exec step s [] = some s := rfl

theorem exec_cons (s : σ) (a : α) (t : List α) :
    exec step s (a :: t) = (step s a).bind fun m => exec step m t := rfl

theorem exec_cons_eq_some {s s' : σ} {a : α} {t : List α} :
    exec step s (a :: t) = some s' ↔
      ∃ m, step s a = some m ∧ exec step m t = some s' := by
  rw [exec_cons, Option.bind_eq_some_iff]

theorem exec_append (s : σ) (t u : List α) :
    exec step s (t ++ u) = (exec step s t).bind fun m => exec step m u := by
  induction t generalizing s with
  | nil => rfl
  | cons a t ih =>
      rw [List.cons_append, exec_cons, exec_cons, Option.bind_assoc]
      exact congrArg _ (funext fun m => ih m)

theorem exec_append_eq_some {s s' : σ} {t u : List α} :
    exec step s (t ++ u) = some s' ↔
      ∃ m, exec step s t = some m ∧ exec step m u = some s' := by
  rw [exec_append, Option.bind_eq_some_iff]

theorem exec_concat_eq_some {s s' : σ} {t : List α} {a : α} :
    exec step s (t ++ [a]) = some s' ↔
      ∃ m, exec step s t = some m ∧ step m a = some s' := by
  simp only [exec_append_eq_some, exec_cons_eq_some, exec_nil, Option.some.injEq,
    exists_eq_right]

/-- What one step with an admissible label preserves, a run with admissible labels
preserves. -/
theorem exec_invariant_of_labels {I : σ → Prop} {L : α → Prop}
    (hstep : ∀ s a s', I s → L a → step s a = some s' → I s') {s s' : σ} {t : List α}
    (hs : I s) (hlabels : ∀ a ∈ t, L a) (hrun : exec step s t = some s') : I s' := by
  induction t generalizing s with
  | nil =>
      rw [exec_nil, Option.some.injEq] at hrun
      exact hrun ▸ hs
  | cons a t ih =>
      obtain ⟨m, hm, hrest⟩ := exec_cons_eq_some.mp hrun
      obtain ⟨ha, ht⟩ := List.forall_mem_cons.mp hlabels
      exact ih (hstep s a m hs ha hm) ht hrest

/-- The same rule when every label is admissible. -/
theorem exec_invariant {I : σ → Prop}
    (hstep : ∀ s a s', I s → step s a = some s' → I s') {s s' : σ} {t : List α}
    (hs : I s) (hrun : exec step s t = some s') : I s' :=
  exec_invariant_of_labels (L := fun _ => True) (fun s a s' h _ => hstep s a s' h) hs
    (fun _ _ => trivial) hrun

/-- The same rule for an invariant that also speaks about the labels taken so
far. -/
theorem exec_history {I : List α → σ → Prop} {s₀ : σ} (hinit : I [] s₀)
    (hstep : ∀ t s a s', I t s → step s a = some s' → I (t ++ [a]) s')
    {t : List α} {s : σ} (hrun : exec step s₀ t = some s) : I t s := by
  induction t using List.reverseRecOn generalizing s with
  | nil =>
      rw [exec_nil, Option.some.injEq] at hrun
      exact hrun ▸ hinit
  | append_singleton t a ih =>
      obtain ⟨m, hm, hlast⟩ := exec_concat_eq_some.mp hrun
      exact hstep t m a s (ih hm) hlast

/-- A run in which the label `b` comes after the label `a`. -/
theorem exec_split_pair {s s' : σ} {t : List α} {a b : α} (hrun : exec step s t = some s')
    (hab : [a, b].Sublist t) :
    ∃ t₁ t₂ t₃ s₁ s₂ s₃ s₄, exec step s t₁ = some s₁ ∧ step s₁ a = some s₂ ∧
      exec step s₂ t₂ = some s₃ ∧ step s₃ b = some s₄ ∧ exec step s₄ t₃ = some s' := by
  obtain ⟨r₁, r₂, rfl, ha, hb⟩ := List.cons_sublist_iff.mp hab
  obtain ⟨t₁, u₁, rfl⟩ := List.append_of_mem ha
  obtain ⟨u₂, t₃, rfl⟩ := List.append_of_mem (List.singleton_sublist.mp hb)
  rw [List.append_assoc, List.cons_append, ← List.append_assoc] at hrun
  obtain ⟨s₁, h₁, hrun⟩ := exec_append_eq_some.mp hrun
  obtain ⟨s₂, h₂, hrun⟩ := exec_cons_eq_some.mp hrun
  obtain ⟨s₃, h₃, hrun⟩ := exec_append_eq_some.mp hrun
  obtain ⟨s₄, h₄, h₅⟩ := exec_cons_eq_some.mp hrun
  exact ⟨t₁, u₁ ++ u₂, t₃, s₁, s₂, s₃, s₄, h₁, h₂, h₃, h₄, h₅⟩

/-- Every step of the run is taken in a state, and with a label, that meets
the side condition. -/
def StepsMeet (step : σ → α → Option σ) (cond : σ → α → Prop) : σ → List α → Prop
  | _, [] => True
  | s, a :: t => cond s a ∧ ∀ m, step s a = some m → StepsMeet step cond m t

/-- On a given run the side condition can be checked. -/
instance StepsMeet.decidable {cond : σ → α → Prop} [∀ s a, Decidable (cond s a)] :
    (s : σ) → (t : List α) → Decidable (StepsMeet step cond s t)
  | _, [] => isTrue trivial
  | s, a :: t =>
      match hstep : step s a with
      | none => decidable_of_iff (cond s a)
          ⟨fun h => ⟨h, fun m hm => by cases hstep.symm.trans hm⟩, And.left⟩
      | some m =>
          have : Decidable (StepsMeet step cond m t) := StepsMeet.decidable m t
          decidable_of_iff (cond s a ∧ StepsMeet step cond m t)
            ⟨fun h => ⟨h.1, fun n hn => Option.some.inj (hstep.symm.trans hn) ▸ h.2⟩,
              fun h => ⟨h.1, h.2 m hstep⟩⟩

/-- What one step preserves when it meets the side condition, every run whose
steps all meet it preserves. -/
theorem exec_invariant_of_stepsMeet {I : σ → Prop} {cond : σ → α → Prop}
    (hstep : ∀ s a s', I s → cond s a → step s a = some s' → I s') {s s' : σ}
    {t : List α} (hs : I s) (hmeet : StepsMeet step cond s t)
    (hrun : exec step s t = some s') : I s' := by
  induction t generalizing s with
  | nil =>
      rw [exec_nil, Option.some.injEq] at hrun
      exact hrun ▸ hs
  | cons a t ih =>
      obtain ⟨m, hm, hrest⟩ := exec_cons_eq_some.mp hrun
      exact ih (hstep s a m hs hmeet.1 hm) (hmeet.2 m hm) hrest

/-- The property holds in every state of the run, the first and the last
included. -/
def Along (step : σ → α → Option σ) (P : σ → Prop) : σ → List α → Prop
  | s, [] => P s
  | s, a :: t => P s ∧ ∀ m, step s a = some m → Along step P m t

theorem Along.head {P : σ → Prop} {s : σ} {t : List α} (h : Along step P s t) : P s := by
  cases t with
  | nil => exact h
  | cons a t => exact h.1

theorem Along.last {P : σ → Prop} {s s' : σ} {t : List α} (h : Along step P s t)
    (hrun : exec step s t = some s') : P s' := by
  induction t generalizing s with
  | nil =>
      rw [exec_nil, Option.some.injEq] at hrun
      exact hrun ▸ h
  | cons a t ih =>
      obtain ⟨m, hm, hrest⟩ := exec_cons_eq_some.mp hrun
      exact ih (h.2 m hm) hrest

theorem Along.append_left {P : σ → Prop} {s : σ} {t u : List α}
    (h : Along step P s (t ++ u)) : Along step P s t := by
  induction t generalizing s with
  | nil => exact h.head
  | cons a t ih => exact ⟨h.1, fun m hm => ih (h.2 m hm)⟩

/-- What follows from an invariant holds in every state of every run. -/
theorem Along.of_invariant {I P : σ → Prop} (hP : ∀ s, I s → P s)
    (hstep : ∀ s a s', I s → step s a = some s' → I s') {s : σ} (hs : I s) (t : List α) :
    Along step P s t := by
  induction t generalizing s with
  | nil => exact hP s hs
  | cons a t ih => exact ⟨hP s hs, fun m hm => ih (hstep s a m hs hm)⟩

/-- If the invariant survives exactly the steps that meet the side condition,
and a step that does not meet it breaks the property at once, then the property
holds along a run exactly when all its steps meet the side condition. -/
theorem along_iff_stepsMeet {I P : σ → Prop} {cond : σ → α → Prop}
    (hP : ∀ s, I s → P s)
    (hgood : ∀ s a s', I s → cond s a → step s a = some s' → I s')
    (hbad : ∀ s a s', I s → ¬cond s a → step s a = some s' → ¬P s') {s s' : σ} {t : List α}
    (hs : I s) (hrun : exec step s t = some s') :
    Along step P s t ↔ StepsMeet step cond s t := by
  induction t generalizing s with
  | nil => exact ⟨fun _ => trivial, fun _ => hP s hs⟩
  | cons a t ih =>
      obtain ⟨m, hm, hrest⟩ := exec_cons_eq_some.mp hrun
      constructor
      · rintro ⟨-, hall⟩
        have hcond : cond s a := by
          by_contra hnot
          exact hbad s a m hs hnot hm (hall m hm).head
        refine ⟨hcond, fun n hn => ?_⟩
        obtain rfl := Option.some.inj (hm.symm.trans hn)
        exact (ih (hgood s a m hs hcond hm) hrest).mp (hall m hm)
      · rintro ⟨hcond, hall⟩
        refine ⟨hP s hs, fun n hn => ?_⟩
        obtain rfl := Option.some.inj (hm.symm.trans hn)
        exact (ih (hgood s a m hs hcond hm) hrest).mpr (hall m hm)

/-- If each step keeps a state good exactly when it meets the side condition,
and nothing makes a bad state good again, then a run ends in a good state
exactly when all its steps meet the side condition. -/
theorem good_iff_stepsMeet {I G : σ → Prop} {L : α → Prop} {cond : σ → α → Prop}
    (hI : ∀ s a s', I s → L a → step s a = some s' → I s')
    (hG : ∀ s a s', I s → step s a = some s' → (G s' ↔ G s ∧ cond s a)) {s s' : σ}
    {t : List α} (hs : I s) (hlabels : ∀ a ∈ t, L a) (hrun : exec step s t = some s') :
    G s' ↔ G s ∧ StepsMeet step cond s t := by
  induction t generalizing s with
  | nil =>
      rw [exec_nil, Option.some.injEq] at hrun
      rw [hrun, StepsMeet, and_true]
  | cons a t ih =>
      obtain ⟨m, hm, hrest⟩ := exec_cons_eq_some.mp hrun
      obtain ⟨ha, ht⟩ := List.forall_mem_cons.mp hlabels
      rw [ih (hI s a m hs ha hm) ht hrest, hG s a m hs hm, and_assoc, StepsMeet]
      simp only [hm, Option.some.injEq, forall_eq']

/-! ### Observers -/

section Instrument

variable {τ : Type*} {note : τ → α → σ → σ → τ}

/-- The system with an observer beside it, who takes a note of every step. -/
def instrument (step : σ → α → Option σ) (note : τ → α → σ → σ → τ) (p : σ × τ) (a : α) :
    Option (σ × τ) :=
  (step p.1 a).map fun m => (m, note p.2 a p.1 m)

theorem instrument_eq_some {s s' : σ} {g g' : τ} {a : α} :
    instrument step note (s, g) a = some (s', g') ↔
      step s a = some s' ∧ note g a s s' = g' := by
  rw [instrument, Option.map_eq_some_iff]
  constructor
  · rintro ⟨m, hm, heq⟩
    obtain ⟨rfl, hnote⟩ := Prod.mk.inj heq
    exact ⟨hm, hnote⟩
  · rintro ⟨hm, rfl⟩
    exact ⟨s', hm, rfl⟩

/-- An observer does not get in the way: the observed runs are the runs. -/
theorem exec_instrument {s s' : σ} {g : τ} {t : List α} :
    (∃ g', exec (instrument step note) (s, g) t = some (s', g')) ↔
      exec step s t = some s' := by
  induction t generalizing s g with
  | nil =>
      simp only [exec_nil, Option.some.injEq, Prod.mk.injEq]
      exact ⟨fun ⟨_, h, _⟩ => h, fun h => ⟨g, h, rfl⟩⟩
  | cons a t ih =>
      rw [exec_cons_eq_some]
      constructor
      · rintro ⟨g', hrun⟩
        obtain ⟨⟨m, g''⟩, hm, hrest⟩ := exec_cons_eq_some.mp hrun
        exact ⟨m, (instrument_eq_some.mp hm).1, ih.mp ⟨g', hrest⟩⟩
      · rintro ⟨m, hm, hrest⟩
        obtain ⟨g', hrun⟩ := (ih (g := note g a s m)).mpr hrest
        exact ⟨g', exec_cons_eq_some.mpr ⟨_, instrument_eq_some.mpr ⟨hm, rfl⟩, hrun⟩⟩

/-- What one step with an admissible label preserves between the system and its observer
holds after every run with admissible labels. -/
theorem instrument_invariant_of_labels (note : τ → α → σ → σ → τ) {I : σ → τ → Prop}
    {L : α → Prop}
    (hstep : ∀ s g a s', I s g → L a → step s a = some s' → I s' (note g a s s')) {s s' : σ}
    {g : τ} {t : List α} (hs : I s g) (hlabels : ∀ a ∈ t, L a)
    (hrun : exec step s t = some s') :
    ∃ g', exec (instrument step note) (s, g) t = some (s', g') ∧ I s' g' := by
  obtain ⟨g', hnoted⟩ := exec_instrument.mpr hrun
  refine ⟨g', hnoted, ?_⟩
  refine exec_invariant_of_labels (I := fun p => I p.1 p.2) ?_ hs hlabels hnoted
  rintro ⟨s, g⟩ a ⟨s', g'⟩ hI ha hnote
  obtain ⟨hmove, rfl⟩ := instrument_eq_some.mp hnote
  exact hstep s g a s' hI ha hmove

theorem instrument_invariant (note : τ → α → σ → σ → τ) {I : σ → τ → Prop}
    (hstep : ∀ s g a s', I s g → step s a = some s' → I s' (note g a s s')) {s s' : σ}
    {g : τ} {t : List α} (hs : I s g) (hrun : exec step s t = some s') :
    ∃ g', exec (instrument step note) (s, g) t = some (s', g') ∧ I s' g' :=
  instrument_invariant_of_labels note (L := fun _ => True) (fun s g a s' h _ => hstep s g a s' h) hs
    (fun _ _ => trivial) hrun

end Instrument

end Library.Exec
