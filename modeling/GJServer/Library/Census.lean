import Mathlib.Data.Fintype.Basic
import Mathlib.Data.Finset.Card

/-!
How many of finitely many parties are in a state of some kind, and what becomes of the
number when one of them changes its state.
-/

namespace Library.Census

variable {ι β : Type*} [Fintype ι]

def census (p : β → Bool) (f : ι → β) : ℕ := (Finset.univ.filter fun i => p (f i)).card

variable {p : β → Bool} {f : ι → β}

theorem census_eq_zero (h : ∀ i, p (f i) = false) : census p f = 0 := by
  rw [census, Finset.card_eq_zero, Finset.filter_eq_empty_iff]
  intro i _
  rw [h i]
  exact Bool.false_ne_true

theorem eq_of_census_le_one (h : census p f ≤ 1) {i j : ι} (hi : p (f i) = true)
    (hj : p (f j) = true) : i = j := by
  apply Finset.card_le_one.mp h
  · exact Finset.mem_filter.mpr ⟨Finset.mem_univ i, hi⟩
  · exact Finset.mem_filter.mpr ⟨Finset.mem_univ j, hj⟩

/-- The party that changes its state is counted before and after; the others are counted
as they were. -/
theorem census_update [DecidableEq ι] (p : β → Bool) (f : ι → β) (i : ι) (b : β) :
    census p (Function.update f i b) + (p (f i)).toNat = census p f + (p b).toNat := by
  have hsplit (g : ι → β) : census p g =
      ((Finset.univ.erase i).filter fun j => p (g j)).card + (p (g i)).toNat := by
    rw [census, ← Finset.insert_erase (Finset.mem_univ i), Finset.filter_insert]
    cases hi : p (g i) with
    | false => simp
    | true => simp
  have hothers : ((Finset.univ.erase i).filter fun j => p (Function.update f i b j)) =
      (Finset.univ.erase i).filter fun j => p (f j) := by
    refine Finset.filter_congr fun j hj => ?_
    rw [Function.update_of_ne (Finset.ne_of_mem_erase hj)]
  rw [hsplit f, hsplit (Function.update f i b), hothers, Function.update_self]
  omega

end Library.Census
