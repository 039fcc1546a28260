import Mathlib.Data.List.Nodup

/-!
Histories with linearization points.

An operation leaves three marks in the log of a run: its call, the moment at
which it takes effect, and its return. The order in which the operations take
effect is one total order of them; if the marks of each operation come in their
order, it keeps real time: an operation that has returned before another is
called comes first.
-/

namespace Library.Linearization

inductive Mark (α : Type*)
  | call (a : α)
  | commit (a : α)
  | ret (a : α)
  deriving DecidableEq

variable {α : Type*}

/-- `x` stands before `y`. -/
def Before (l : List α) (x y : α) : Prop := List.Sublist [x, y] l

instance [DecidableEq α] (l : List α) (x y : α) : Decidable (Before l x y) :=
  inferInstanceAs (Decidable (List.Sublist _ _))

theorem before_concat {l : List α} {x y z : α} :
    Before (l ++ [z]) x y ↔ Before l x y ∨ x ∈ l ∧ y = z := by
  constructor
  · intro h
    obtain ⟨l₁, l₂, hsplit, h₁, h₂⟩ := List.sublist_append_iff.mp h
    rcases List.sublist_singleton.mp h₂ with rfl | rfl
    · apply Or.inl
      rwa [Before, hsplit, List.append_nil]
    · obtain ⟨hx, hy⟩ := List.append_inj' (show [x] ++ [y] = l₁ ++ [z] from hsplit) rfl
      exact Or.inr ⟨List.singleton_sublist.mp (hx ▸ h₁), List.singleton_inj.mp hy⟩
  · rintro (h | ⟨hx, rfl⟩)
    · exact h.trans (List.sublist_append_left l [z])
    · exact (List.singleton_sublist.mpr hx).append (List.Sublist.refl [y])

theorem Before.mem_left {l : List α} {x y : α} (h : Before l x y) : x ∈ l :=
  h.subset (by simp)

theorem Before.mem_right {l : List α} {x y : α} (h : Before l x y) : y ∈ l :=
  h.subset (by simp)

/-- The operations in the order in which they take effect. -/
def commits (log : List (Mark α)) : List α :=
  log.filterMap fun
    | .commit a => some a
    | _ => none

theorem mem_commits {log : List (Mark α)} {a : α} : a ∈ commits log ↔ .commit a ∈ log := by
  rw [commits, List.mem_filterMap]
  constructor
  · rintro ⟨mark, hmark, hsome⟩
    cases mark with
    | commit b => exact Option.some.inj hsome ▸ hmark
    | call b => cases hsome
    | ret b => cases hsome
  · exact fun h => ⟨.commit a, h, rfl⟩

theorem commits_append (log more : List (Mark α)) :
    commits (log ++ more) = commits log ++ commits more := List.filterMap_append

@[simp] theorem commits_call (log : List (Mark α)) (a : α) :
    commits (log ++ [.call a]) = commits log := by
  simp [commits]

@[simp] theorem commits_commit (log : List (Mark α)) (a : α) :
    commits (log ++ [.commit a]) = commits log ++ [a] := by
  simp [commits]

@[simp] theorem commits_ret (log : List (Mark α)) (a : α) :
    commits (log ++ [.ret a]) = commits log := by
  simp [commits]

/-- An operation is called once, takes effect once after its call, and returns
after its effect. -/
inductive Orderly : List (Mark α) → Prop
  | nil : Orderly []
  | call {log a} (h : Orderly log) (hnew : .call a ∉ log) : Orderly (log ++ [.call a])
  | commit {log a} (h : Orderly log) (hcalled : .call a ∈ log) (hnew : a ∉ commits log) :
      Orderly (log ++ [.commit a])
  | ret {log a} (h : Orderly log) (hcommitted : a ∈ commits log) : Orderly (log ++ [.ret a])

namespace Orderly

variable {log : List (Mark α)} {a b : α}

theorem called (h : Orderly log) (ha : a ∈ commits log) : .call a ∈ log := by
  induction h with
  | nil => cases ha
  | call h hnew ih =>
      rw [commits_call] at ha
      exact List.mem_append_left _ (ih ha)
  | commit h hcalled hnew ih =>
      rw [commits_commit, List.mem_append, List.mem_singleton] at ha
      rcases ha with ha | rfl
      · exact List.mem_append_left _ (ih ha)
      · exact List.mem_append_left _ hcalled
  | ret h hcommitted ih =>
      rw [commits_ret] at ha
      exact List.mem_append_left _ (ih ha)

theorem committed (h : Orderly log) (ha : .ret a ∈ log) : a ∈ commits log := by
  induction h with
  | nil => cases ha
  | call h hnew ih =>
      rw [commits_call]
      exact ih (by simpa using ha)
  | commit h hcalled hnew ih =>
      rw [commits_commit]
      exact List.mem_append_left _ (ih (by simpa using ha))
  | ret h hcommitted ih =>
      rw [commits_ret]
      rcases List.mem_append.mp ha with ha | ha
      · exact ih ha
      · obtain rfl := Mark.ret.inj (List.mem_singleton.mp ha)
        exact hcommitted

theorem nodup_commits (h : Orderly log) : (commits log).Nodup := by
  induction h with
  | nil => exact List.nodup_nil
  | call h hnew ih => rwa [commits_call]
  | commit h hcalled hnew ih =>
      rw [commits_commit]
      exact List.nodup_append.mpr ⟨ih, List.nodup_singleton _, fun x hx y hy =>
        List.mem_singleton.mp hy ▸ fun heq => hnew (heq ▸ hx)⟩
  | ret h hcommitted ih => rwa [commits_ret]

/-- The order of the effects keeps real time. -/
theorem realTime (h : Orderly log) (hab : Before log (.ret a) (.call b))
    (hb : b ∈ commits log) : Before (commits log) a b := by
  induction h with
  | nil => cases hb
  | call h hnew ih =>
      rw [commits_call] at hb ⊢
      rcases before_concat.mp hab with hab | ⟨-, heq⟩
      · exact ih hab hb
      · obtain rfl := Mark.call.inj heq
        exact absurd (h.called hb) hnew
  | commit h hcalled hnew ih =>
      rcases before_concat.mp hab with hab | ⟨-, heq⟩
      · rw [commits_commit] at hb ⊢
        rw [before_concat]
        rcases List.mem_append.mp hb with hb | hb
        · exact Or.inl (ih hab hb)
        · exact Or.inr ⟨h.committed hab.mem_left, List.mem_singleton.mp hb⟩
      · cases heq
  | ret h hcommitted ih =>
      rw [commits_ret] at hb ⊢
      rcases before_concat.mp hab with hab | ⟨-, heq⟩
      · exact ih hab hb
      · cases heq

end Orderly

/-! ### What comes before an operation -/

/-- The operations before `a` in the order. -/
def prior [DecidableEq α] : List α → α → List α
  | [], _ => []
  | x :: order, a => if x = a then [] else x :: prior order a

section Prior

variable [DecidableEq α] {order : List α} {a : α}

theorem prior_append (pre post : List α) (h : a ∉ pre) : prior (pre ++ a :: post) a = pre := by
  induction pre with
  | nil => exact if_pos rfl
  | cons x pre ih =>
      rw [List.mem_cons, not_or] at h
      rw [List.cons_append, prior, if_neg (Ne.symm h.1), ih h.2]

/-- What comes before an operation does not change when others follow. -/
theorem prior_append_of_mem (h : a ∈ order) (more : List α) :
    prior (order ++ more) a = prior order a := by
  obtain ⟨pre, post, rfl, hpre⟩ := List.eq_append_cons_of_mem h
  rw [List.append_assoc, List.cons_append, prior_append _ _ hpre, prior_append _ _ hpre]

theorem prior_concat_self (h : a ∉ order) : prior (order ++ [a]) a = order :=
  prior_append order [] h

/-- In an order without repetitions what stands before `y` is what comes before `y`. -/
theorem mem_prior_of_before {b : α} (hnodup : order.Nodup) (hab : Before order a b) :
    a ∈ prior order b := by
  obtain ⟨pre, post, rfl, hpre⟩ := List.eq_append_cons_of_mem hab.mem_right
  rw [prior_append _ _ hpre]
  obtain ⟨l₁, l₂, hsplit, h₁, h₂⟩ := List.sublist_append_iff.mp hab
  cases l₁ with
  | nil =>
      -- then `b` would stand a second time behind itself
      obtain rfl : [a, b] = l₂ := hsplit
      have hcons : [a, b].Sublist (b :: post) := h₂
      have hb : b ∈ post := by
        cases hcons with
        | cons _ h => exact h.subset (by simp)
        | cons_cons _ h => exact List.singleton_sublist.mp h
      exact absurd hb (List.nodup_cons.mp (List.nodup_append.mp hnodup).2.1).1
  | cons x l₁ =>
      obtain ⟨rfl, -⟩ := List.cons.inj hsplit
      exact h₁.subset List.mem_cons_self

theorem prefix_of_prior (order : List α) (a : α) : prior order a <+: order := by
  induction order with
  | nil => exact List.nil_prefix
  | cons x order ih =>
      rw [prior]
      split
      · exact List.nil_prefix
      · exact List.cons_prefix_cons.mpr ⟨rfl, ih⟩

/-- What comes before the earlier of two operations, and that operation itself. -/
theorem prefix_concat_prior {b : α} (hab : a ∈ prior order b) :
    prior order a ++ [a] <+: prior order b := by
  obtain ⟨pre, post, hsplit, hpre⟩ := List.eq_append_cons_of_mem hab
  obtain ⟨more, horder⟩ := prefix_of_prior order b
  have ha : prior order a = pre := by
    rw [← horder, prior_append_of_mem hab, hsplit, prior_append _ _ hpre]
  rw [ha, hsplit]
  exact ⟨post, by simp⟩

end Prior

/-! ### Processes that call one operation after the other -/

section Processes

variable {ι β : Type*} [DecidableEq ι] {log : List (Mark (ι × ℕ))} {i : ι}

/-- What is process `i`'s in a list, such as the numbers of its operations in an order. -/
def own (i : ι) (order : List (ι × β)) : List β :=
  order.filterMap fun a => if a.1 = i then some a.2 else none

theorem mem_own {order : List (ι × β)} {k : β} : k ∈ own i order ↔ (i, k) ∈ order := by
  simp only [own, List.mem_filterMap, Option.ite_none_right_eq_some, Option.some.injEq,
    Prod.exists]
  constructor
  · rintro ⟨j, k, hmem, rfl, rfl⟩
    exact hmem
  · exact fun hmem => ⟨i, k, hmem, rfl, rfl⟩

theorem own_append (order more : List (ι × β)) :
    own i (order ++ more) = own i order ++ own i more := List.filterMap_append

theorem own_self (k : β) : own i [(i, k)] = [k] := by
  simp [own]

theorem own_other {j : ι} (h : j ≠ i) (k : β) : own i [(j, k)] = [] := by
  simp [own, h]

theorem own_map {γ : Type*} (f : ι × β → γ) (order : List (ι × β)) :
    own i (order.map fun a => (a.1, f a)) = (own i order).map fun k => f (i, k) := by
  induction order with
  | nil => rfl
  | cons a order ih =>
      obtain ⟨j, k⟩ := a
      by_cases hj : j = i
      · subst hj
        simpa [own] using ih
      · simpa [own, hj] using ih

/-- Before the process calls an operation its earlier ones have returned. -/
def InProgramOrder (log : List (Mark (ι × ℕ))) (i : ι) : Prop :=
  ∀ j k, j < k → .call (i, k) ∈ log → Before log (.ret (i, j)) (.call (i, k))

omit [DecidableEq ι] in
theorem InProgramOrder.of_concat {mark : Mark (ι × ℕ)} (h : InProgramOrder (log ++ [mark]) i)
    (hnew : ∀ k, mark = .call (i, k) → .call (i, k) ∉ log) : InProgramOrder log i := by
  intro j k hjk hk
  rcases before_concat.mp (h j k hjk (List.mem_append_left _ hk)) with h | ⟨-, heq⟩
  · exact h
  · exact absurd hk (hnew k heq.symm)

/-- The operations of a process take effect in its order, with none left out. -/
theorem Orderly.own_eq_range (h : Orderly log) (hprogram : InProgramOrder log i) :
    ∃ m, own i (commits log) = List.range m := by
  induction h with
  | nil => exact ⟨0, rfl⟩
  | call h hnew ih =>
      rw [commits_call]
      exact ih (hprogram.of_concat fun k heq => by
        obtain rfl := Mark.call.inj heq
        exact hnew)
  | @commit log a h hcalled hnew ih =>
      have hprogram' := hprogram.of_concat fun k heq => by cases heq
      obtain ⟨m, hm⟩ := ih hprogram'
      obtain ⟨j, k⟩ := a
      rw [commits_commit, own_append, hm]
      by_cases hj : j = i
      · subst hj
        have hkm : k = m := by
          refine Nat.le_antisymm (Nat.not_lt.mp fun hlt => ?_)
            (Nat.not_lt.mp fun hlt => hnew ?_)
          · have hret := (hprogram' m k hlt hcalled).mem_left
            have hmem := mem_own.mpr (h.committed hret)
            rw [hm, List.mem_range] at hmem
            exact absurd hmem (Nat.lt_irrefl m)
          · rw [← mem_own, hm]
            exact List.mem_range.mpr hlt
        exact ⟨m + 1, by rw [own_self, hkm, List.range_succ]⟩
      · exact ⟨m, by rw [own_other hj, List.append_nil]⟩
  | ret h hcommitted ih =>
      rw [commits_ret]
      exact ih (hprogram.of_concat fun k heq => by cases heq)

omit [DecidableEq ι] in
theorem eq_range_of_prefix {l : List ℕ} {m : ℕ} (h : l <+: List.range m) :
    l = List.range l.length := by
  obtain ⟨more, hmore⟩ := h
  have hle : l.length ≤ m := by
    have hlength := congrArg List.length hmore
    rw [List.length_append, List.length_range] at hlength
    omega
  have htake := congrArg (List.take l.length) hmore
  rwa [List.take_left, List.take_range, Nat.min_eq_left hle] at htake

/-- How many operations of process `i` take effect before the operation `a`. -/
def seen (order : List (ι × ℕ)) (i : ι) (a : ι × ℕ) : ℕ := (own i (prior order a)).length

section Seen

variable {order : List (ι × ℕ)} {m : ℕ} (hown : own i order = List.range m)
include hown

theorem own_prior (a : ι × ℕ) : own i (prior order a) = List.range (seen order i a) := by
  refine eq_range_of_prefix (m := m) (hown ▸ ?_)
  exact (prefix_of_prior order a).filterMap _

theorem seen_le (a : ι × ℕ) : seen order i a ≤ m := by
  have hlength := ((prefix_of_prior order a).filterMap
    (fun a : ι × ℕ => if a.1 = i then some a.2 else none)).length_le
  have hm := congrArg List.length hown
  rw [List.length_range] at hm
  exact hm ▸ hlength

theorem lt_seen_of_mem {a : ι × ℕ} {k : ℕ} (hk : (i, k) ∈ prior order a) :
    k < seen order i a := by
  rw [← List.mem_range, ← own_prior hown, mem_own]
  exact hk

/-- A process sees its own operations as it calls them. -/
theorem seen_self {k : ℕ} (hk : (i, k) ∈ order) : seen order i (i, k) = k := by
  obtain ⟨pre, post, rfl, hpre⟩ := List.eq_append_cons_of_mem hk
  have hprefix : own i pre ++ [k] <+: List.range m := by
    rw [← hown, ← own_self (i := i) k, ← own_append]
    refine List.IsPrefix.filterMap _ ?_
    exact ⟨post, by simp⟩
  have heq := eq_range_of_prefix hprefix
  rw [List.length_append, List.length_singleton, List.range_succ] at heq
  have hlast := (List.append_inj' heq rfl).2
  rw [seen, prior_append _ _ hpre]
  exact (List.singleton_inj.mp hlast).symm

end Seen

theorem seen_mono {order : List (ι × ℕ)} {a b : ι × ℕ} (hab : a ∈ prior order b) :
    seen order i a ≤ seen order i b :=
  (((List.prefix_append _ _).trans (prefix_concat_prior hab)).filterMap
    (fun a : ι × ℕ => if a.1 = i then some a.2 else none)).length_le

end Processes

end Library.Linearization
