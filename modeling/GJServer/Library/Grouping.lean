import Mathlib.Algebra.BigOperators.Group.Finset.Piecewise
import Mathlib.Algebra.BigOperators.Ring.Finset

/-!
A history of keyed values and the part of it that belongs to one key.

However many keys there are, a number counted over the whole history is the sum of the
numbers counted for each key.
-/

namespace Library.Grouping

variable {κ β : Type*} [DecidableEq κ]

/-- What the history has under the key `k`, in its order. -/
def valuesAt (k : κ) (l : List (κ × β)) : List β := (l.filter fun a => a.1 = k).map Prod.snd

theorem valuesAt_concat_self (k : κ) (b : β) (l : List (κ × β)) :
    valuesAt k (l ++ [(k, b)]) = valuesAt k l ++ [b] := by
  simp [valuesAt, List.filter_append]

theorem valuesAt_concat_of_ne {k k' : κ} (h : k' ≠ k) (b : β) (l : List (κ × β)) :
    valuesAt k (l ++ [(k', b)]) = valuesAt k l := by
  simp [valuesAt, List.filter_append, h]

theorem countP_valuesAt_cons (p : β → Bool) (k : κ) (a : κ × β) (l : List (κ × β)) :
    (valuesAt k (a :: l)).countP p =
      (valuesAt k l).countP p + if a.1 = k then (if p a.2 then 1 else 0) else 0 := by
  by_cases h : a.1 = k <;> simp [valuesAt, h, List.countP_cons]

theorem countP_eq_sum (p : β → Bool) {l : List (κ × β)} {keys : Finset κ}
    (h : ∀ a ∈ l, a.1 ∈ keys) :
    (l.map Prod.snd).countP p = ∑ k ∈ keys, (valuesAt k l).countP p := by
  induction l with
  | nil => simp [valuesAt]
  | cons a l ih =>
      obtain ⟨ha, hl⟩ := List.forall_mem_cons.mp h
      simp only [countP_valuesAt_cons, Finset.sum_add_distrib, ← ih hl, Finset.sum_ite_eq,
        if_pos ha, List.map_cons, List.countP_cons]

end Library.Grouping
