import Mathlib.Data.List.Basic

/-!
Sliding windows over a history in time order.

A queue is fed at its back and loses entries from its front, as long as the front is
outside the window. That is right when an entry is in the window whenever an older one
is: what the loop stops at is then everything that is left. And as the window only moves
on, what has been dropped is never missed.
-/

namespace Library.Window

variable {α : Type*} {p q : α → Bool} {l : List α}

/-- An entry is in the window `p` whenever an older one is. -/
def Moving (p : α → Bool) (l : List α) : Prop := l.Pairwise fun a b => p a = true → p b = true

theorem dropWhile_eq_filter (h : Moving p l) : (l.dropWhile fun a => !p a) = l.filter p := by
  induction l with
  | nil => rfl
  | cons a l ih =>
      obtain ⟨ha, hl⟩ := List.pairwise_cons.mp h
      by_cases hp : p a = true
      · rw [List.dropWhile_cons_of_neg (by simp [hp]), List.filter_cons_of_pos hp,
          List.filter_eq_self.mpr fun b hb => ha b hb hp]
      · rw [List.dropWhile_cons_of_pos (by simp [hp]), ih hl, List.filter_cons_of_neg hp]

/-- When the window moves on from `p` to `q`, dropping from the front of what was left
leaves what the whole history has in the new window. -/
theorem dropWhile_filter (hmoves : ∀ a ∈ l, q a = true → p a = true) (h : Moving q l) :
    ((l.filter p).dropWhile fun a => !q a) = l.filter q := by
  rw [dropWhile_eq_filter (List.Pairwise.filter p h), List.filter_filter]
  refine List.filter_congr fun a ha => ?_
  cases hq : q a with
  | true => rw [hmoves a ha hq, Bool.and_true]
  | false => rfl

end Library.Window
