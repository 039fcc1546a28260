import Mathlib.Data.List.Basic

/-!
Text cut at a separator.

`lines` reads a text the way `getline` does: a separator ends a line, and what
follows the last separator is a line only if it is not empty. `before` and
`after` cut a line at its first separator.
-/

namespace Library.Delimited

variable {α : Type*} [DecidableEq α] {sep : α}

/-! ### Lines -/

def lines (sep : α) : List α → List (List α)
  | [] => []
  | a :: t =>
      if a = sep then [] :: lines sep t
      else match lines sep t with
        | [] => [[a]]
        | l :: ls => (a :: l) :: ls

def unlines (sep : α) (ls : List (List α)) : List α := ls.flatMap fun l => l ++ [sep]

theorem lines_append_sep {l : List α} (hl : sep ∉ l) (t : List α) :
    lines sep (l ++ sep :: t) = l :: lines sep t := by
  induction l with
  | nil => simp [lines]
  | cons a l ih =>
      rw [List.mem_cons, not_or] at hl
      simp [lines, Ne.symm hl.1, ih hl.2]

theorem lines_unlines {ls : List (List α)} (hls : ∀ l ∈ ls, sep ∉ l) :
    lines sep (unlines sep ls) = ls := by
  induction ls with
  | nil => rfl
  | cons l ls ih =>
      have hl : sep ∉ l := hls l (by simp)
      have htail : unlines sep (l :: ls) = l ++ sep :: unlines sep ls := by
        simp [unlines]
      rw [htail, lines_append_sep hl, ih fun k hk => hls k (List.mem_cons_of_mem _ hk)]

theorem not_mem_of_mem_lines {t l : List α} (hl : l ∈ lines sep t) : sep ∉ l := by
  induction t generalizing l with
  | nil => cases hl
  | cons a t ih =>
      rw [lines] at hl
      split at hl
      · rcases List.mem_cons.mp hl with rfl | hl
        · exact List.not_mem_nil
        · exact ih hl
      · next ha =>
          cases hls : lines sep t with
          | nil =>
              simp only [hls, List.mem_singleton] at hl
              simp [hl, Ne.symm ha]
          | cons k ks =>
              rw [hls] at ih
              simp only [hls, List.mem_cons] at hl
              rcases hl with rfl | hl
              · simp [Ne.symm ha, ih List.mem_cons_self]
              · exact ih (List.mem_cons_of_mem _ hl)

theorem lines_ne_nil (sep : α) {t : List α} (ht : t ≠ []) : lines sep t ≠ [] := by
  cases t with
  | nil => exact absurd rfl ht
  | cons a t =>
      rw [lines]
      split
      · exact List.cons_ne_nil _ _
      · split <;> exact List.cons_ne_nil _ _

/-- The end of the text is the end of a line. -/
def Terminated (sep : α) (t : List α) : Prop := t = [] ∨ t.getLast? = some sep

/-- What follows a terminated text begins a line of its own. -/
theorem lines_append {t : List α} (ht : Terminated sep t) (u : List α) :
    lines sep (t ++ u) = lines sep t ++ lines sep u := by
  induction t with
  | nil => rfl
  | cons a t ih =>
      have hlast : (a :: t).getLast? = some sep := ht.resolve_left (List.cons_ne_nil a t)
      by_cases hnil : t = []
      · subst hnil
        obtain rfl : a = sep := Option.some.inj hlast
        simp [lines]
      · have htail : Terminated sep t := by
          refine Or.inr ?_
          rwa [List.getLast?_cons_of_ne_nil hnil] at hlast
        rw [List.cons_append, lines, lines, ih htail]
        obtain ⟨l, ls, hls⟩ := List.exists_cons_of_ne_nil (lines_ne_nil sep hnil)
        rw [hls]
        split <;> rfl

theorem lines_flatten {ts : List (List α)} (h : ∀ t ∈ ts, Terminated sep t) :
    lines sep ts.flatten = ts.flatMap (lines sep) := by
  induction ts with
  | nil => rfl
  | cons t ts ih =>
      obtain ⟨ht, hts⟩ := List.forall_mem_cons.mp h
      rw [List.flatten_cons, lines_append ht, ih hts, List.flatMap_cons]

/-! ### The first separator of a line -/

def before (sep : α) (l : List α) : List α := l.takeWhile (· ≠ sep)

def after (sep : α) (l : List α) : List α := (l.dropWhile (· ≠ sep)).tail

@[simp] theorem before_cons (a : α) (l : List α) :
    before sep (a :: l) = if a = sep then [] else a :: before sep l := by
  by_cases h : a = sep <;> simp [before, h]

@[simp] theorem after_cons (a : α) (l : List α) :
    after sep (a :: l) = if a = sep then l else after sep l := by
  by_cases h : a = sep <;> simp [after, h]

theorem not_mem_before (l : List α) : sep ∉ before sep l := by
  induction l with
  | nil => exact List.not_mem_nil
  | cons a l ih =>
      by_cases h : a = sep
      · simp [h]
      · simp [h, Ne.symm h, ih]

theorem mem_of_mem_before {a : α} {l : List α} (h : a ∈ before sep l) : a ∈ l :=
  (List.takeWhile_prefix _).subset h

theorem mem_of_mem_after {a : α} {l : List α} (h : a ∈ after sep l) : a ∈ l :=
  (List.dropWhile_suffix _).subset (List.mem_of_mem_tail h)

theorem before_append_sep {k : List α} (hk : sep ∉ k) (v : List α) :
    before sep (k ++ sep :: v) = k := by
  induction k with
  | nil => simp
  | cons a k ih =>
      rw [List.mem_cons, not_or] at hk
      simp [Ne.symm hk.1, ih hk.2]

theorem after_append_sep {k : List α} (hk : sep ∉ k) (v : List α) :
    after sep (k ++ sep :: v) = v := by
  induction k with
  | nil => simp
  | cons a k ih =>
      rw [List.mem_cons, not_or] at hk
      simp [Ne.symm hk.1, ih hk.2]

theorem before_of_not_mem {l : List α} (hl : sep ∉ l) : before sep l = l := by
  induction l with
  | nil => rfl
  | cons a l ih =>
      rw [List.mem_cons, not_or] at hl
      simp [Ne.symm hl.1, ih hl.2]

theorem after_of_not_mem {l : List α} (hl : sep ∉ l) : after sep l = [] := by
  induction l with
  | nil => rfl
  | cons a l ih =>
      rw [List.mem_cons, not_or] at hl
      simp [Ne.symm hl.1, ih hl.2]

/-- A line with a separator is put together again from its two parts. -/
theorem before_append_after {l : List α} (hl : sep ∈ l) :
    before sep l ++ sep :: after sep l = l := by
  induction l with
  | nil => cases hl
  | cons a l ih =>
      by_cases h : a = sep
      · simp [h]
      · have hmem : sep ∈ l := (List.mem_cons.mp hl).resolve_left (Ne.symm h)
        simp [h, ih hmem]

/-! ### Where the lines and the parts of a line lie -/

/-- Behind any separator lies an end of what is behind the first. -/
theorem suffix_after (p q : List α) : q <:+ after sep (p ++ sep :: q) := by
  induction p with
  | nil => simp
  | cons a p ih =>
      by_cases h : a = sep
      · rw [List.cons_append, after_cons, if_pos h]
        exact ⟨p ++ [sep], by simp⟩
      · simpa [h] using ih

/-- A part of a line has no more behind its first separator than the line. -/
theorem length_after_le {l t : List α} (h : l <:+: t) :
    (after sep l).length ≤ (after sep t).length := by
  by_cases hl : sep ∈ l
  · obtain ⟨x, y, rfl⟩ := h
    have ht : x ++ l ++ y = (x ++ before sep l) ++ sep :: (after sep l ++ y) := by
      conv_lhs => rw [← before_append_after hl]
      simp
    have hsuffix : after sep l ++ y <:+ after sep (x ++ l ++ y) := ht ▸ suffix_after _ _
    have hle := hsuffix.length_le
    rw [List.length_append] at hle
    omega
  · rw [after_of_not_mem hl]
    exact Nat.zero_le _

/-- Up to a separator, a text has only parts of itself for lines. -/
theorem mem_lines_append_sep {t u l : List α} (h : l ∈ lines sep (t ++ sep :: u)) :
    l <:+: t ∨ l ∈ lines sep u := by
  by_cases ht : sep ∈ t
  · have hcut := before_append_after ht
    rw [← hcut, List.append_assoc, List.cons_append, lines_append_sep (not_mem_before t),
      List.mem_cons] at h
    rcases h with rfl | h
    · exact Or.inl (List.takeWhile_prefix _).isInfix
    · refine (mem_lines_append_sep h).imp_left fun hinfix => hinfix.trans ?_
      exact ⟨before sep t ++ [sep], [], by simpa using hcut⟩
  · rw [lines_append_sep ht, List.mem_cons] at h
    rcases h with rfl | h
    · exact Or.inl List.infix_rfl
    · exact Or.inr h
termination_by t.length
decreasing_by
  have hlen := congrArg List.length (before_append_after ht)
  rw [List.length_append, List.length_cons] at hlen
  omega

end Library.Delimited
