import Mathlib.Data.List.Basic

/-!
Composed writes that share one stream.

A write queues a piece of data, and from then on any part of what is left of any
piece can go out next: always a prefix of it, never an empty one. Whatever the
order, nothing is lost and nothing goes out twice. The stream is made of whole
pieces as long as no piece is touched before the older ones have gone out
completely.
-/

namespace Library

/-- The pieces that have been queued, what is left of each, and the stream. -/
structure Channel (α : Type*) where
  queued : List (List α)
  rests : List (List α)
  stream : List α
  deriving DecidableEq

namespace Channel

variable {α : Type*}

def empty : Channel α where
  queued := []
  rests := []
  stream := []

def write (c : Channel α) (data : List α) : Channel α where
  queued := c.queued ++ [data]
  rests := c.rests ++ [data]
  stream := c.stream

/-- The next `n` elements of piece `i` go out. -/
def writeSome (c : Channel α) (i n : ℕ) : Option (Channel α) :=
  match c.rests[i]? with
  | some rest =>
      if 0 < n ∧ n ≤ rest.length then
        some { c with rests := c.rests.set i (rest.drop n), stream := c.stream ++ rest.take n }
      else none
  | none => none

/-- No piece in front of piece `i` is still on its way. -/
def IsFirst (c : Channel α) (i : ℕ) : Prop := ∀ rest ∈ c.rests.take i, rest = []

instance [DecidableEq α] (c : Channel α) (i : ℕ) : Decidable (c.IsFirst i) :=
  inferInstanceAs (Decidable (∀ rest ∈ c.rests.take i, rest = []))

/-- What has gone out and what is left make up what was queued. -/
def Whole (c : Channel α) : Prop := c.stream ++ c.rests.flatten = c.queued.flatten

variable {c c' : Channel α} {i n : ℕ}

theorem writeSome_eq_some (h : c.writeSome i n = some c') :
    ∃ pre rest post, c.rests = pre ++ rest :: post ∧ pre = c.rests.take i ∧
      c' = ⟨c.queued, pre ++ rest.drop n :: post, c.stream ++ rest.take n⟩ := by
  unfold writeSome at h
  split at h
  · next rest hrest =>
      obtain ⟨hi, hget⟩ := List.getElem?_eq_some_iff.mp hrest
      rw [Option.ite_none_right_eq_some, Option.some.injEq] at h
      obtain ⟨-, rfl⟩ := h
      refine ⟨c.rests.take i, rest, c.rests.drop (i + 1), ?_, rfl, ?_⟩
      · rw [← hget, ← List.drop_eq_getElem_cons hi, List.take_append_drop]
      · rw [List.set_eq_take_append_cons_drop, if_pos hi]
  · cases h

theorem rests_writeSome (h : c.writeSome i n = some c') :
    ∃ rest, c.rests[i]? = some rest ∧ c'.rests = c.rests.set i (rest.drop n) := by
  unfold writeSome at h
  split at h
  · next rest hrest =>
      rw [Option.ite_none_right_eq_some, Option.some.injEq] at h
      obtain ⟨-, rfl⟩ := h
      exact ⟨rest, hrest, rfl⟩
  · cases h

theorem whole_empty : (empty : Channel α).Whole := rfl

theorem whole_write (h : c.Whole) (data : List α) : (c.write data).Whole := by
  show c.stream ++ (c.rests ++ [data]).flatten = (c.queued ++ [data]).flatten
  rw [List.flatten_append, List.flatten_append, ← List.append_assoc, h]

theorem whole_writeSome (h : c.Whole) (hfirst : c.IsFirst i)
    (hsome : c.writeSome i n = some c') : c'.Whole := by
  obtain ⟨pre, rest, post, hrests, hpre, rfl⟩ := writeSome_eq_some hsome
  have hnil : pre.flatten = [] := List.flatten_eq_nil_iff.mpr (hpre ▸ hfirst)
  rw [Whole, hrests, List.flatten_append, List.flatten_cons, hnil, List.nil_append] at h
  calc (c.stream ++ rest.take n) ++ (pre ++ rest.drop n :: post).flatten
      = c.stream ++ ((rest.take n ++ rest.drop n) ++ post.flatten) := by
        rw [List.flatten_append, List.flatten_cons, hnil, List.nil_append, List.append_assoc,
          List.append_assoc]
    _ = c.queued.flatten := by rw [List.take_append_drop, h]

theorem Whole.stream_prefix (h : c.Whole) : c.stream <+: c.queued.flatten :=
  ⟨c.rests.flatten, h⟩

/-- In any order, nothing is lost and nothing goes out twice. -/
def Conserved (c : Channel α) : Prop :=
  (c.stream ++ c.rests.flatten).Perm c.queued.flatten

theorem conserved_empty : (empty : Channel α).Conserved := .refl _

theorem conserved_write (h : c.Conserved) (data : List α) : (c.write data).Conserved := by
  show (c.stream ++ (c.rests ++ [data]).flatten).Perm (c.queued ++ [data]).flatten
  rw [List.flatten_append, List.flatten_append, ← List.append_assoc]
  exact h.append_right _

theorem conserved_writeSome (h : c.Conserved) (hsome : c.writeSome i n = some c') :
    c'.Conserved := by
  obtain ⟨pre, rest, post, hrests, -, rfl⟩ := writeSome_eq_some hsome
  refine List.Perm.trans ?_ h
  rw [hrests]
  simp only [List.flatten_append, List.flatten_cons, List.append_assoc]
  refine List.Perm.append_left c.stream ?_
  -- the part that goes out passes what is left of the older pieces
  calc (rest.take n ++ (pre.flatten ++ (rest.drop n ++ post.flatten))).Perm
        (pre.flatten ++ (rest.take n ++ (rest.drop n ++ post.flatten))) :=
        List.perm_append_comm_assoc ..
    _ = pre.flatten ++ (rest ++ post.flatten) := by
        rw [← List.append_assoc (rest.take n), List.take_append_drop]

/-! ### One piece at a time -/

/-- Nothing but the newest piece is still on its way. -/
def Single (c : Channel α) : Prop := ∀ rest ∈ c.rests.dropLast, rest = []

theorem single_empty : (empty : Channel α).Single := by
  intro rest h
  cases h

theorem single_write (hidle : c.rests.flatten = []) (data : List α) :
    (c.write data).Single := by
  intro rest hrest
  rw [write, List.dropLast_concat] at hrest
  exact List.flatten_eq_nil_iff.mp hidle rest hrest

theorem Single.exists_concat (h : c.Single) {rest : List α} (hrest : rest ∈ c.rests)
    (hne : rest ≠ []) : ∃ pre, c.rests = pre ++ [rest] ∧ pre.flatten = [] := by
  rcases List.eq_nil_or_concat c.rests with hnil | ⟨pre, last, hsplit⟩
  · rw [hnil] at hrest
    cases hrest
  · rw [List.concat_eq_append] at hsplit
    have hpre : ∀ r ∈ pre, r = [] := by
      intro r hr
      exact h r (by rwa [hsplit, List.dropLast_concat])
    rw [hsplit] at hrest
    rcases List.mem_append.mp hrest with hmem | hmem
    · exact absurd (hpre rest hmem) hne
    · obtain rfl := List.mem_singleton.mp hmem
      exact ⟨pre, hsplit, List.flatten_eq_nil_iff.mpr hpre⟩

/-- A part that goes out is not empty, and it is the beginning of what is left. -/
theorem Single.writeSome (h : c.Single) (hsome : c.writeSome i n = some c') :
    c'.Single ∧ c.IsFirst i ∧ ∃ out, out ≠ [] ∧ c'.stream = c.stream ++ out ∧
      c.rests.flatten = out ++ c'.rests.flatten := by
  unfold Channel.writeSome at hsome
  split at hsome
  · next rest hrest =>
      rw [Option.ite_none_right_eq_some, Option.some.injEq] at hsome
      obtain ⟨⟨hpos, hle⟩, rfl⟩ := hsome
      have hne : rest ≠ [] := List.ne_nil_of_length_pos (by omega)
      obtain ⟨pre, hsplit, hpre⟩ := h.exists_concat (List.mem_of_getElem? hrest) hne
      have hi : i = pre.length := by
        obtain ⟨hlt, hget⟩ := List.getElem?_eq_some_iff.mp hrest
        rw [hsplit, List.length_append, List.length_singleton] at hlt
        by_contra hne'
        have hi : i < pre.length := by omega
        rw [hsplit, List.getElem?_append_left hi] at hrest
        exact hne (List.flatten_eq_nil_iff.mp hpre rest (List.mem_of_getElem? hrest))
      subst hi
      have hnil := List.flatten_eq_nil_iff.mp hpre
      refine ⟨?_, ?_, rest.take n, ?_, rfl, ?_⟩
      · intro r hr
        rw [hsplit, List.set_append_right _ _ (Nat.le_refl _), Nat.sub_self, List.set_cons_zero,
          List.dropLast_concat] at hr
        exact hnil r hr
      · intro r hr
        rw [hsplit, List.take_left] at hr
        exact hnil r hr
      · apply List.ne_nil_of_length_pos
        rw [List.length_take]
        omega
      · rw [hsplit, List.set_append_right _ _ (Nat.le_refl _), Nat.sub_self, List.set_cons_zero,
          List.flatten_append, List.flatten_append, hpre, List.flatten_singleton,
          List.flatten_singleton, List.nil_append, List.nil_append, List.take_append_drop]
  · cases hsome

/-- As long as something is left, some of it can go out. -/
theorem exists_writeSome (h : c.rests.flatten ≠ []) : ∃ i n c', c.writeSome i n = some c' := by
  obtain ⟨rest, hmem, hne⟩ : ∃ rest ∈ c.rests, rest ≠ [] := by
    by_contra hall
    refine h (List.flatten_eq_nil_iff.mpr fun rest hrest => ?_)
    by_contra hne
    exact hall ⟨rest, hrest, hne⟩
  obtain ⟨i, hi⟩ := List.mem_iff_getElem?.mp hmem
  have hlegal : 0 < 1 ∧ 1 ≤ rest.length := ⟨Nat.one_pos, List.length_pos_iff.mpr hne⟩
  refine ⟨i, 1, ?_⟩
  simp only [Channel.writeSome, hi, if_pos hlegal]
  exact ⟨_, rfl⟩

end Channel

end Library
