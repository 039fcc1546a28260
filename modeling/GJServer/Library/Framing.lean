import Mathlib.Data.List.Basic

/-!
Length-prefixed framing of a stream.

A format says how long a header is and what total length a header announces.
A stream then falls apart into whole frames and one incomplete rest, and it
does so in only one way; this is what makes a receiver that keeps nothing but
the bytes of the current frame agree with the sender, however the stream was
cut on its way.
-/

namespace Library.Framing

/-- A framing format: the announced length is read off the header alone. -/
structure Format (α : Type*) where
  headerLen : ℕ
  size : List α → ℕ
  headerLen_pos : 0 < headerLen
  size_append : ∀ h rest, headerLen ≤ h.length → size (h ++ rest) = size h

variable {α β : Type*} {F : Format α}

def Format.IsFrame (F : Format α) (f : List α) : Prop :=
  F.headerLen ≤ f.length ∧ F.size f = f.length

def Format.Incomplete (F : Format α) (r : List α) : Prop :=
  F.headerLen ≤ r.length → r.length < F.size r

/-- The list is the whole frames `fs` one after the other, followed by the
incomplete rest `r`. -/
structure Decomposes (F : Format α) (l : List α) (fs : List (List α)) (r : List α) :
    Prop where
  flatten : fs.flatten ++ r = l
  frames : ∀ f ∈ fs, F.IsFrame f
  rest : F.Incomplete r

theorem Format.incomplete_nil (F : Format α) : F.Incomplete [] := by
  intro h
  exact absurd F.headerLen_pos (Nat.not_lt.mpr h)

theorem Decomposes.nil (F : Format α) : Decomposes F [] [] [] where
  flatten := rfl
  frames := by simp
  rest := F.incomplete_nil

/-- Two lists that both reach past the header and agree with a common
continuation announce the same length. -/
theorem Format.size_eq_of_append_eq {f g a b : List α} (hf : F.headerLen ≤ f.length)
    (hg : F.headerLen ≤ g.length) (h : f ++ a = g ++ b) : F.size f = F.size g := by
  rw [← F.size_append f a hf, ← F.size_append g b hg, h]

theorem Format.IsFrame.not_incomplete_append {f rest : List α} (hf : F.IsFrame f) :
    ¬F.Incomplete (f ++ rest) := by
  intro h
  have hlt := h (by rw [List.length_append]; exact Nat.le_add_right_of_le hf.1)
  rw [F.size_append f rest hf.1, hf.2, List.length_append] at hlt
  omega

theorem Format.IsFrame.append_inj {f g a b : List α} (hf : F.IsFrame f)
    (hg : F.IsFrame g) (h : f ++ a = g ++ b) : f = g ∧ a = b := by
  have hsize := F.size_eq_of_append_eq hf.1 hg.1 h
  rw [hf.2, hg.2] at hsize
  exact List.append_inj h hsize

/-- Two runs of whole frames that begin one stream: one is the beginning of the
other, and the rests differ by the surplus frames. -/
theorem frames_cancel {fs gs : List (List α)} {a b : List α}
    (hfs : ∀ f ∈ fs, F.IsFrame f) (hgs : ∀ g ∈ gs, F.IsFrame g)
    (h : fs.flatten ++ a = gs.flatten ++ b) :
    (∃ ks, gs = fs ++ ks ∧ a = ks.flatten ++ b) ∨
      ∃ ks, ks ≠ [] ∧ fs = gs ++ ks ∧ b = ks.flatten ++ a := by
  induction fs generalizing gs with
  | nil => exact Or.inl ⟨gs, rfl, h⟩
  | cons f fs ih =>
      cases gs with
      | nil => exact Or.inr ⟨f :: fs, by simp, rfl, h.symm⟩
      | cons g gs =>
          rw [List.flatten_cons, List.flatten_cons, List.append_assoc,
            List.append_assoc] at h
          obtain ⟨rfl, htail⟩ := (hfs f (by simp)).append_inj (hgs g (by simp)) h
          rcases ih (fun k hk => hfs k (List.mem_cons_of_mem _ hk))
              (fun k hk => hgs k (List.mem_cons_of_mem _ hk)) htail with
            ⟨ks, rfl, ha⟩ | ⟨ks, hne, rfl, hb⟩
          · exact Or.inl ⟨ks, rfl, ha⟩
          · exact Or.inr ⟨ks, hne, rfl, hb⟩

theorem Format.Incomplete.eq_nil {r a : List α} {ks : List (List α)}
    (hr : F.Incomplete r) (hks : ∀ k ∈ ks, F.IsFrame k) (h : r = ks.flatten ++ a) :
    ks = [] := by
  cases ks with
  | nil => rfl
  | cons k ks =>
      rw [h, List.flatten_cons, List.append_assoc] at hr
      exact absurd hr (hks k (by simp)).not_incomplete_append

/-- A stream has at most one decomposition. -/
theorem Decomposes.unique {l r r' : List α} {fs fs' : List (List α)}
    (h : Decomposes F l fs r) (h' : Decomposes F l fs' r') : fs = fs' ∧ r = r' := by
  rcases frames_cancel h.frames h'.frames (h.flatten.trans h'.flatten.symm) with
    ⟨ks, rfl, hr⟩ | ⟨ks, hne, rfl, hr⟩
  · obtain rfl := h.rest.eq_nil (fun k hk => h'.frames k (List.mem_append_right _ hk)) hr
    exact ⟨(List.append_nil fs).symm, hr⟩
  · exact absurd
      (h'.rest.eq_nil (fun k hk => h.frames k (List.mem_append_right _ hk)) hr) hne

/-! ### Streams that nobody has promised anything about -/

/-- The frames at the beginning of a stream, up to the first that `accept` refuses, as far
as the announced lengths make sense. -/
def Format.leading (F : Format α) (accept : List α → Bool) (l : List α) : List (List α) :=
  if F.headerLen ≤ F.size l ∧ F.size l ≤ l.length then
    let frame := l.take (F.size l)
    if accept frame then frame :: F.leading accept (l.drop (F.size l)) else [frame]
  else []
termination_by l.length
decreasing_by
  have hpos := F.headerLen_pos
  rw [List.length_drop]
  omega

/-- The list does not begin with a frame: it is too short for one, or its header announces
less than a header. -/
def Format.Stuck (F : Format α) (l : List α) : Prop :=
  F.headerLen ≤ F.size l → l.length < F.size l

variable {accept : List α → Bool}

theorem Format.Incomplete.stuck {r : List α} (h : F.Incomplete r) : F.Stuck r := by
  intro hsize
  by_contra hle
  have hlen : F.headerLen ≤ r.length := by omega
  exact hle (h hlen)

theorem Format.Stuck.leading_eq_nil {l : List α} (h : F.Stuck l) : F.leading accept l = [] := by
  rw [Format.leading, if_neg]
  exact fun hsize => Nat.not_lt.mpr hsize.2 (h hsize.1)

theorem Format.IsFrame.leading_append {f : List α} (hf : F.IsFrame f) (rest : List α) :
    F.leading accept (f ++ rest) =
      if accept f then f :: F.leading accept rest else [f] := by
  have hsize : F.size (f ++ rest) = f.length := (F.size_append f rest hf.1).trans hf.2
  rw [Format.leading, hsize, if_pos ⟨hf.1, by rw [List.length_append]; omega⟩, List.take_left,
    List.drop_left]

/-- Accepted frames, and whatever follows them. -/
theorem Format.leading_flatten {fs : List (List α)} (hfs : ∀ f ∈ fs, F.IsFrame f)
    (haccept : ∀ f ∈ fs, accept f = true) (r : List α) :
    F.leading accept (fs.flatten ++ r) = fs ++ F.leading accept r := by
  induction fs with
  | nil => rfl
  | cons f fs ih =>
      rw [List.flatten_cons, List.append_assoc,
        (hfs f List.mem_cons_self).leading_append, if_pos (haccept f List.mem_cons_self),
        ih (fun g hg => hfs g (List.mem_cons_of_mem _ hg))
          fun g hg => haccept g (List.mem_cons_of_mem _ hg),
        List.cons_append]

theorem Decomposes.leading_eq {l r : List α} {fs : List (List α)} (h : Decomposes F l fs r)
    (haccept : ∀ f ∈ fs, accept f = true) : F.leading accept l = fs := by
  rw [← h.flatten, Format.leading_flatten h.frames haccept, h.rest.stuck.leading_eq_nil,
    List.append_nil]

/-! ### The prefixes of a stream of known items -/

/-- The items that lie wholly in the first `n` positions, when item `x` takes
`len x` of them. -/
def wholeItems (len : β → ℕ) : List β → ℕ → List β
  | [], _ => []
  | x :: xs, n => if len x ≤ n then x :: wholeItems len xs (n - len x) else []

/-- How many of the first `n` positions belong to an item that is not wholly
among them. -/
def unfinishedLength (len : β → ℕ) : List β → ℕ → ℕ
  | [], n => n
  | x :: xs, n => if len x ≤ n then unfinishedLength len xs (n - len x) else n

theorem mem_of_mem_wholeItems {len : β → ℕ} {xs : List β} {n : ℕ} {x : β}
    (h : x ∈ wholeItems len xs n) : x ∈ xs := by
  induction xs generalizing n with
  | nil => exact h
  | cons y ys ih =>
      rw [wholeItems] at h
      split at h
      · rcases List.mem_cons.mp h with rfl | h
        · exact List.mem_cons_self
        · exact List.mem_cons_of_mem _ (ih h)
      · cases h

/-- A prefix of a stream of frames decomposes into the frames that lie wholly
in it. -/
theorem prefix_decomposes (frame : β → List α) (xs : List β)
    (hframe : ∀ x ∈ xs, F.IsFrame (frame x)) {p : List α}
    (hp : p <+: (xs.map frame).flatten) :
    ∃ r, Decomposes F p
        ((wholeItems (fun x => (frame x).length) xs p.length).map frame) r ∧
      r.length = unfinishedLength (fun x => (frame x).length) xs p.length := by
  induction xs generalizing p with
  | nil =>
      obtain rfl : p = [] := List.prefix_nil.mp hp
      exact ⟨[], Decomposes.nil F, rfl⟩
  | cons x xs ih =>
      have hx : F.IsFrame (frame x) := hframe x (by simp)
      rw [List.map_cons, List.flatten_cons] at hp
      by_cases hlen : (frame x).length ≤ p.length
      · -- the first frame is complete: cut it off and treat the rest alike
        obtain ⟨q, rfl⟩ : frame x <+: p :=
          List.prefix_of_prefix_length_le (List.prefix_append ..) hp hlen
        have hq : q <+: (xs.map frame).flatten := (List.prefix_append_right_inj _).mp hp
        obtain ⟨r, hr, hrlen⟩ := ih (fun y hy => hframe y (List.mem_cons_of_mem _ hy)) hq
        refine ⟨r, ⟨?_, ?_, hr.rest⟩, ?_⟩
        · simpa [wholeItems] using hr.flatten
        · intro f hf
          simp only [wholeItems, List.length_append, Nat.le_add_right, if_true,
            Nat.add_sub_cancel_left, List.map_cons, List.mem_cons] at hf
          rcases hf with rfl | hf
          · exact hx
          · exact hr.frames f hf
        · simpa [unfinishedLength] using hrlen
      · -- the prefix ends inside the first frame
        have hpre : p <+: frame x :=
          List.prefix_of_prefix_length_le hp (List.prefix_append ..) (by omega)
        obtain ⟨q, hq⟩ := hpre
        refine ⟨p, ⟨?_, ?_, ?_⟩, ?_⟩
        · simp [wholeItems, hlen]
        · simp [wholeItems, hlen]
        · intro hheader
          rw [← F.size_append p q hheader, hq, hx.2]
          omega
        · simp [unfinishedLength, hlen]

end Library.Framing
