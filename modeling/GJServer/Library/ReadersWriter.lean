import GJServer.Library.Simulation
import Mathlib.Data.Fintype.Basic
import Mathlib.Logic.Function.Basic

/-!
An object behind a lock for many readers or one writer.

A critical section works on the object in small steps, and between two steps of one
thread any other thread may take steps of its own. A section under the shared lock only
looks, and no section runs next to one under the exclusive lock. Then the sections might
as well be atomic: the locked system simulates the one in which a whole section is one
step, taken when the lock is given back.
-/

namespace Library.ReadersWriter

open Exec

/-- What is left of a critical section: it is over, or it acts on the object and goes on
with what it has seen there. -/
inductive Section (σ ρ : Type*)
  | done (result : ρ)
  | act (update : σ → σ) (next : σ → Section σ ρ)

variable {ι κ σ ρ : Type*}

/-- The section without interruption. -/
def Section.run : Section σ ρ → σ → σ × ρ
  | .done result, s => (s, result)
  | .act update next, s => (next s).run (update s)

inductive Section.ReadOnly : Section σ ρ → Prop
  | done (result : ρ) : ReadOnly (.done result)
  | act {next : σ → Section σ ρ} (hnext : ∀ s, (next s).ReadOnly) : ReadOnly (.act id next)

theorem Section.ReadOnly.run_fst {body : Section σ ρ} (h : body.ReadOnly) (s : σ) :
    (body.run s).1 = s := by
  induction h with
  | done result => rfl
  | act hnext ih => exact ih s

/-- A critical section and the lock it asks for. -/
structure Call (σ ρ : Type*) where
  shared : Bool
  body : Section σ ρ
  readOnly : shared = true → body.ReadOnly

/-! ### Atomic sections -/

/-- A section that is over: who ran it, and what came out of it. -/
structure Entry (ι κ ρ : Type*) where
  thread : ι
  op : κ
  result : ρ
  deriving DecidableEq

structure Atomic (ι κ σ ρ : Type*) where
  object : σ
  finished : List (Entry ι κ ρ)

/-- A whole section at once. -/
def atomicStep (call : κ → Call σ ρ) (a : Atomic ι κ σ ρ) (e : ι × κ) :
    Option (Atomic ι κ σ ρ) :=
  let ran := (call e.2).body.run a.object
  some ⟨ran.1, a.finished ++ [⟨e.1, e.2, ran.2⟩]⟩

/-- The object after the sections of the history, one after the other. -/
def after (call : κ → Call σ ρ) (object : σ) (history : List (Entry ι κ ρ)) : σ :=
  history.foldl (fun object entry => ((call entry.op).body.run object).1) object

/-- Every section came out as it does when the sections before it in the history have
run, one after the other, and no other. -/
def Serial (call : κ → Call σ ρ) (object : σ) (history : List (Entry ι κ ρ)) : Prop :=
  ∀ pre entry post, history = pre ++ entry :: post →
    entry.result = ((call entry.op).body.run (after call object pre)).2

variable {call : κ → Call σ ρ}

theorem after_concat (object : σ) (history : List (Entry ι κ ρ)) (entry : Entry ι κ ρ) :
    after call object (history ++ [entry]) =
      ((call entry.op).body.run (after call object history)).1 := by
  rw [after, List.foldl_append]
  rfl

theorem Serial.concat {object : σ} {history : List (Entry ι κ ρ)}
    (h : Serial call object history) {entry : Entry ι κ ρ}
    (hentry : entry.result = ((call entry.op).body.run (after call object history)).2) :
    Serial call object (history ++ [entry]) := by
  intro pre e post hsplit
  rcases List.eq_nil_or_concat post with rfl | ⟨post', last, rfl⟩
  · obtain ⟨rfl, hlast⟩ := List.append_inj' hsplit rfl
    obtain rfl := List.singleton_inj.mp hlast
    exact hentry
  · refine h pre e post' ?_
    rw [List.concat_eq_append, ← List.cons_append, ← List.append_assoc] at hsplit
    exact (List.append_inj' hsplit rfl).1

theorem serial_of_exec {object : σ} {events : List (ι × κ)} {a : Atomic ι κ σ ρ}
    (hrun : exec (atomicStep call) ⟨object, []⟩ events = some a) :
    Serial call object a.finished ∧ a.object = after call object a.finished := by
  refine exec_invariant (I := fun a : Atomic ι κ σ ρ =>
    Serial call object a.finished ∧ a.object = after call object a.finished) ?_ ?_ hrun
  · rintro a e a' ⟨hserial, hobject⟩ hstep
    obtain rfl := Option.some.inj hstep
    refine ⟨hserial.concat (by rw [hobject]), ?_⟩
    rw [after_concat, hobject]
  · refine ⟨fun pre entry post hsplit => ?_, rfl⟩
    cases pre <;> cases hsplit

/-! ### Threads and their lock -/

inductive Thread (κ σ ρ : Type*)
  | outside
  | waiting (op : κ)
  | inside (op : κ) (rest : Section σ ρ)

/-- `finished` are the sections in the order in which they gave the lock back. -/
structure State (ι κ σ ρ : Type*) where
  object : σ
  threads : ι → Thread κ σ ρ
  finished : List (Entry ι κ ρ)

inductive Event (ι κ : Type*)
  | call (i : ι) (op : κ)
  | lock (i : ι)
  | act (i : ι)
  | unlock (i : ι)

/-- A thread inside keeps out everyone but readers from readers. -/
def Thread.admits (call : κ → Call σ ρ) (shared : Bool) : Thread κ σ ρ → Bool
  | .inside op _ => shared && (call op).shared
  | _ => true

def start (object : σ) : State ι κ σ ρ := ⟨object, fun _ => .outside, []⟩

variable [DecidableEq ι]

def State.setThread (s : State ι κ σ ρ) (i : ι) (thread : Thread κ σ ρ) : State ι κ σ ρ :=
  { s with threads := Function.update s.threads i thread }

def step [Fintype ι] (call : κ → Call σ ρ) (s : State ι κ σ ρ) :
    Event ι κ → Option (State ι κ σ ρ)
  | .call i op =>
      match s.threads i with
      | .outside => some (s.setThread i (.waiting op))
      | _ => none
  | .lock i =>
      match s.threads i with
      | .waiting op =>
          if ∀ j, (s.threads j).admits call (call op).shared = true then
            some (s.setThread i (.inside op (call op).body))
          else none
      | _ => none
  | .act i =>
      match s.threads i with
      | .inside op (.act update next) =>
          some { s.setThread i (.inside op (next s.object)) with object := update s.object }
      | _ => none
  | .unlock i =>
      match s.threads i with
      | .inside op (.done result) =>
          some { s.setThread i .outside with finished := s.finished ++ [⟨i, op, result⟩] }
      | _ => none

/-! ### The simulation -/

/-- The object of `a` is what the threads inside have found: readers will see what they
would have seen at once, and a writer will leave what it would have left. -/
structure Abstracts (call : κ → Call σ ρ) (s : State ι κ σ ρ) (a : Atomic ι κ σ ρ) : Prop where
  finished : s.finished = a.finished
  reader : ∀ i op rest, s.threads i = .inside op rest → (call op).shared = true →
    rest.ReadOnly ∧ (rest.run a.object).2 = ((call op).body.run a.object).2
  writer : ∀ i op rest, s.threads i = .inside op rest → (call op).shared = false →
    rest.run s.object = (call op).body.run a.object
  alone : ∀ i op rest, s.threads i = .inside op rest → (call op).shared = false →
    ∀ j op' rest', s.threads j = .inside op' rest' → j = i
  object : (∀ i op rest, s.threads i = .inside op rest → (call op).shared = true) →
    s.object = a.object

variable {s s' : State ι κ σ ρ} {a : Atomic ι κ σ ρ} {i : ι}

omit [DecidableEq ι] in
theorem abstracts_start (object : σ) :
    Abstracts call (start object : State ι κ σ ρ) ⟨object, []⟩ where
  finished := rfl
  reader _ _ _ h := by cases h
  writer _ _ _ h := by cases h
  alone _ _ _ h := by cases h
  object _ := rfl

theorem setThread_self (thread : Thread κ σ ρ) : (s.setThread i thread).threads i = thread :=
  Function.update_self ..

theorem setThread_of_ne {j : ι} (hj : j ≠ i) (thread : Thread κ σ ρ) :
    (s.setThread i thread).threads j = s.threads j := Function.update_of_ne hj ..

theorem setThread_eq {thread thread' : Thread κ σ ρ} {j : ι}
    (h : (s.setThread i thread).threads j = thread') :
    (j = i ∧ thread = thread') ∨ (j ≠ i ∧ s.threads j = thread') := by
  by_cases hj : j = i
  · subst hj
    rw [setThread_self] at h
    exact Or.inl ⟨rfl, h⟩
  · rw [setThread_of_ne hj] at h
    exact Or.inr ⟨hj, h⟩

theorem abstracts_call (h : Abstracts call s a) (hi : s.threads i = .outside) (op : κ) :
    Abstracts call (s.setThread i (.waiting op)) a := by
  have hinside {j op' rest} (hj : (s.setThread i (.waiting op)).threads j = .inside op' rest) :
      s.threads j = .inside op' rest := by
    rcases setThread_eq hj with ⟨-, hthread⟩ | ⟨-, hthread⟩
    · cases hthread
    · exact hthread
  refine ⟨h.finished, fun j op' rest hj => h.reader j op' rest (hinside hj),
    fun j op' rest hj => h.writer j op' rest (hinside hj),
    fun j op' rest hj hshared k op'' rest' hk =>
      h.alone j op' rest (hinside hj) hshared k op'' rest' (hinside hk),
    fun hall => h.object fun j op' rest hj => hall j op' rest ?_⟩
  rw [setThread_of_ne _ _]
  · exact hj
  · rintro rfl
    cases hi.symm.trans hj

theorem abstracts_lock (h : Abstracts call s a) {op : κ} (hi : s.threads i = .waiting op)
    (hadmits : ∀ j, (s.threads j).admits call (call op).shared = true) :
    Abstracts call (s.setThread i (.inside op (call op).body)) a := by
  have hadmits' {j op' rest} (hj : s.threads j = .inside op' rest) :
      (call op).shared = true ∧ (call op').shared = true := by
    have hj' := hadmits j
    rw [hj, Thread.admits, Bool.and_eq_true] at hj'
    exact hj'
  have hobject : (call op).shared = false → s.object = a.object := by
    intro hexclusive
    refine h.object fun j op' rest hj => ?_
    rw [(hadmits' hj).1] at hexclusive
    cases hexclusive
  refine ⟨h.finished, fun j op' rest hj hshared => ?_, fun j op' rest hj hshared => ?_,
    fun j op' rest hj hshared k op'' rest' hk => ?_, fun hall => h.object fun j op' rest hj => ?_⟩
  · rcases setThread_eq hj with ⟨-, hthread⟩ | ⟨-, hthread⟩
    · obtain ⟨rfl, rfl⟩ := Thread.inside.inj hthread
      exact ⟨(call op).readOnly hshared, rfl⟩
    · exact h.reader j op' rest hthread hshared
  · rcases setThread_eq hj with ⟨-, hthread⟩ | ⟨-, hthread⟩
    · obtain ⟨rfl, rfl⟩ := Thread.inside.inj hthread
      exact congrArg _ (hobject hshared)
    · exact h.writer j op' rest hthread hshared
  · rcases setThread_eq hj with ⟨rfl, hthread⟩ | ⟨-, hthread⟩
    · obtain ⟨rfl, rfl⟩ := Thread.inside.inj hthread
      rcases setThread_eq hk with ⟨rfl, -⟩ | ⟨-, hthread'⟩
      · rfl
      · rw [(hadmits' hthread').1] at hshared
        cases hshared
    · rw [(hadmits' hthread).2] at hshared
      cases hshared
  · exact (hadmits' hj).2

theorem abstracts_act (h : Abstracts call s a) {op : κ} {update : σ → σ}
    {next : σ → Section σ ρ} (hi : s.threads i = .inside op (.act update next)) :
    Abstracts call { s.setThread i (.inside op (next s.object)) with object := update s.object }
      a := by
  -- who is inside does not change, and with which operation
  have hinside {j op' rest} (hj : (s.setThread i (.inside op (next s.object))).threads j =
      .inside op' rest) : ∃ rest', s.threads j = .inside op' rest' := by
    rcases setThread_eq hj with ⟨rfl, hthread⟩ | ⟨-, hthread⟩
    · obtain ⟨rfl, -⟩ := Thread.inside.inj hthread
      exact ⟨_, hi⟩
    · exact ⟨rest, hthread⟩
  have halone : ∀ j op' rest, (s.setThread i (.inside op (next s.object))).threads j =
      .inside op' rest → (call op').shared = false → ∀ k op'' rest',
        (s.setThread i (.inside op (next s.object))).threads k = .inside op'' rest' → k = j := by
    intro j op' rest hj hshared k op'' rest' hk
    obtain ⟨rest₁, hj'⟩ := hinside hj
    obtain ⟨rest₂, hk'⟩ := hinside hk
    exact h.alone j op' rest₁ hj' hshared k op'' rest₂ hk'
  cases hop : (call op).shared with
  | true =>
      have hobject : s.object = a.object := by
        refine h.object fun j op' rest hj => ?_
        cases hop' : (call op').shared with
        | true => rfl
        | false =>
            have hij := h.alone j op' rest hj hop' i op _ hi
            subst hij
            obtain ⟨rfl, -⟩ := Thread.inside.inj (hi.symm.trans hj)
            exact hop'.symm.trans hop
      obtain ⟨hreadOnly, hresult⟩ := h.reader i op _ hi hop
      cases hreadOnly with
      | act hnext =>
          refine ⟨h.finished, fun j op' rest hj hshared => ?_, fun j op' rest hj hshared => ?_,
            halone, fun _ => hobject⟩
          · rcases setThread_eq hj with ⟨-, hthread⟩ | ⟨-, hthread⟩
            · obtain ⟨rfl, rfl⟩ := Thread.inside.inj hthread
              refine ⟨hnext _, ?_⟩
              rw [hobject]
              exact hresult
            · exact h.reader j op' rest hthread hshared
          · rcases setThread_eq hj with ⟨-, hthread⟩ | ⟨-, hthread⟩
            · obtain ⟨rfl, -⟩ := Thread.inside.inj hthread
              cases hop.symm.trans hshared
            · exact h.writer j op' rest hthread hshared
  | false =>
      refine ⟨h.finished, fun j op' rest hj hshared => ?_, fun j op' rest hj hshared => ?_,
        halone, fun hall => ?_⟩
      · obtain ⟨rest', hj'⟩ := hinside hj
        obtain rfl := h.alone i op _ hi hop j op' rest' hj'
        obtain ⟨rfl, -⟩ := Thread.inside.inj (hi.symm.trans hj')
        cases hop.symm.trans hshared
      · obtain ⟨rest', hj'⟩ := hinside hj
        obtain rfl := h.alone i op _ hi hop j op' rest' hj'
        obtain ⟨rfl, rfl⟩ := Thread.inside.inj ((setThread_self _).symm.trans hj)
        exact h.writer j op _ hi hop
      · cases hop.symm.trans (hall i op _ (setThread_self _))

theorem abstracts_unlock (h : Abstracts call s a) {op : κ} {result : ρ}
    (hi : s.threads i = .inside op (.done result)) :
    ∃ a', exec (atomicStep call) a [(i, op)] = some a' ∧
      Abstracts call
        { s.setThread i .outside with finished := s.finished ++ [⟨i, op, result⟩] } a' := by
  have hinside {j op' rest} (hj : (s.setThread i .outside).threads j = .inside op' rest) :
      j ≠ i ∧ s.threads j = .inside op' rest := by
    rcases setThread_eq hj with ⟨-, hthread⟩ | hother
    · cases hthread
    · exact hother
  refine ⟨_, rfl, ?_⟩
  cases hop : (call op).shared with
  | true =>
      have hsame : ((call op).body.run a.object).1 = a.object :=
        ((call op).readOnly hop).run_fst a.object
      refine ⟨?_, fun j op' rest hj => ?_, fun j op' rest hj => ?_,
        fun j op' rest hj hshared k op'' rest' hk =>
          h.alone j op' rest (hinside hj).2 hshared k op'' rest' (hinside hk).2, fun hall => ?_⟩
      · dsimp only
        rw [h.finished, ← (h.reader i op _ hi hop).2]
        rfl
      · dsimp only
        rw [hsame]
        exact h.reader j op' rest (hinside hj).2
      · dsimp only
        rw [hsame]
        exact h.writer j op' rest (hinside hj).2
      · dsimp only
        rw [hsame]
        refine h.object fun j op' rest hj => ?_
        by_cases hji : j = i
        · subst hji
          obtain ⟨rfl, -⟩ := Thread.inside.inj (hi.symm.trans hj)
          exact hop
        · exact hall j op' rest ((setThread_of_ne hji _).trans hj)
  | false =>
      have hran : (s.object, result) = (call op).body.run a.object := h.writer i op _ hi hop
      have hnobody {j op' rest} (hj : (s.setThread i .outside).threads j = .inside op' rest) :
          False := (hinside hj).1 (h.alone i op _ hi hop j op' rest (hinside hj).2)
      refine ⟨?_, fun j op' rest hj => (hnobody hj).elim, fun j op' rest hj => (hnobody hj).elim,
        fun j op' rest hj => (hnobody hj).elim, fun _ => congrArg Prod.fst hran⟩
      dsimp only
      rw [h.finished, ← hran]

/-- Sections under the lock are atomic. -/
theorem simulates_atomic [Fintype ι] (call : κ → Call σ ρ) :
    Simulates (step call) (atomicStep call)
      (fun (s : State ι κ σ ρ) a => Abstracts call s a) (fun _ _ => 0) (fun _ => 0) := by
  intro s a e s' h hstep
  cases e with
  | call i op =>
      simp only [step] at hstep
      split at hstep
      · next hi =>
          obtain rfl := Option.some.inj hstep
          exact ⟨[], a, rfl, abstracts_call h hi op, le_refl _⟩
      · cases hstep
  | lock i =>
      simp only [step] at hstep
      split at hstep
      · next op hi =>
          rw [Option.ite_none_right_eq_some, Option.some.injEq] at hstep
          obtain ⟨hadmits, rfl⟩ := hstep
          exact ⟨[], a, rfl, abstracts_lock h hi hadmits, le_refl _⟩
      · cases hstep
  | act i =>
      simp only [step] at hstep
      split at hstep
      · next op update next hi =>
          obtain rfl := Option.some.inj hstep
          exact ⟨[], a, rfl, abstracts_act h hi, le_refl _⟩
      · cases hstep
  | unlock i =>
      simp only [step] at hstep
      split at hstep
      · next op result hi =>
          obtain rfl := Option.some.inj hstep
          obtain ⟨a', hrun, h'⟩ := abstracts_unlock h hi
          exact ⟨_, a', hrun, h', le_refl _⟩
      · cases hstep

/-- In every run the finished sections came out as if they had run one after the other,
and while no writer is inside the object is what they leave behind. -/
theorem serial_of_run [Fintype ι] {object : σ} {events : List (Event ι κ)}
    (hrun : exec (step call) (start object) events = some s) :
    Serial call object s.finished ∧
      ((∀ i op rest, s.threads i = .inside op rest → (call op).shared = true) →
        s.object = after call object s.finished) := by
  obtain ⟨u, a, hatomic, h, -⟩ := (simulates_atomic call).run (abstracts_start object) hrun
  obtain ⟨hserial, hobject⟩ := serial_of_exec hatomic
  rw [← h.finished] at hserial hobject
  exact ⟨hserial, fun hreaders => (h.object hreaders).trans hobject⟩

end Library.ReadersWriter
