import GJServer.Logging.Stat

/-!
The statistics of the frame and a recount of the whole history. `m_frame` is what the
history has in the window that ends with the last reading of the clock, and the counters
of the frame are its tally, however often they have been incremented and decremented on
the way and however long the history is.
-/

namespace GJServer.Logging

open Library Exec Net Utils

/-- The numbers of reads and of writes, each modulo `2 ^ 32`. -/
def tally (entries : List Entry) : TKeyStat where
  nread := .ofNat (entries.countP fun entry => entry.2)
  nwrite := .ofNat (entries.countP fun entry => !entry.2)

def inFrame (frameDuration : TDuration) (now : TTimestamp) (entry : Entry) : Bool :=
  decide (now - entry.1 < frameDuration)

/-- The entries that `ClearStatFrame` takes from the front of `m_frame`. -/
def TStat.popped (stat : TStat) (now : TTimestamp) : List Entry :=
  stat.frame.take (stat.frame.length - (stat.clearStatFrame now).frame.length)

/-- An observer with unbounded memory: every access there has been, every entry whose
counter has been decremented, and for each report what a recount gives at its time. -/
structure Recount where
  accesses : List (Str × Entry)
  popped : List Entry
  reports : List GlobalReport

namespace Recount

def start : Recount := ⟨[], [], []⟩

def entries (g : Recount) : List Entry := g.accesses.map Prod.snd

def window (g : Recount) (s : State) : List Entry :=
  g.entries.filter (inFrame s.stat.frameDuration s.clock)

def note (g : Recount) (e : Event) (s _ : State) : Recount :=
  match e with
  | .logAccess key isRead now =>
      { g with accesses := g.accesses ++ [(key, now, isRead)]
               popped := g.popped ++ s.stat.popped now }
  | .reportClear now => { g with popped := g.popped ++ s.stat.popped now }
  | .reportCopy => { g with reports := g.reports ++ [⟨tally (g.window s), tally g.entries⟩] }

end Recount

/-- The frame holds what the history has in the window, in time order; its counters are
its tally; each decrement was made for an entry that had been counted, and once; and the
reports are those of the recount. -/
structure Recounted (s : State) (g : Recount) : Prop where
  frame : s.stat.frame = g.window s
  sorted : s.stat.frame.Pairwise fun entry later => entry.1 ≤ later.1
  framed : s.stat.framedStat = tally s.stat.frame
  popped : g.entries = g.popped ++ s.stat.frame
  reports : s.globalReports = g.reports

/-! ### Counters -/

theorem tally_concat (entries : List Entry) (entry : Entry) :
    tally (entries ++ [entry]) = (tally entries).increment entry.2 := by
  obtain ⟨time, isRead⟩ := entry
  cases isRead <;> simp [tally, TKeyStat.increment, UInt32.ofNat_add]

/-- Taking back the count of an entry that was counted. -/
theorem decrement_tally_cons (entry : Entry) (entries : List Entry) :
    (tally (entry :: entries)).decrement entry.2 = tally entries := by
  obtain ⟨time, isRead⟩ := entry
  cases isRead <;> simp [tally, TKeyStat.decrement, UInt32.ofNat_add]

theorem clearFrame_tally (frameDuration : TDuration) (now : TTimestamp)
    (frame : List Entry) :
    TStat.clearFrame frameDuration now frame (tally frame) =
      (frame.dropWhile fun entry => !inFrame frameDuration now entry,
        tally (frame.dropWhile fun entry => !inFrame frameDuration now entry)) := by
  induction frame with
  | nil => rfl
  | cons front frame ih =>
      rw [TStat.clearFrame]
      by_cases hin : now - front.1 < frameDuration
      · rw [List.dropWhile_cons_of_neg (by simp [inFrame, hin])]
        exact if_pos hin
      · rw [List.dropWhile_cons_of_pos (by simp [inFrame, hin]), ← ih, decrement_tally_cons]
        exact if_neg hin

/-! ### The window -/

/-- An access stays in the frame no longer than a later one. -/
theorem inFrame_of_le {frameDuration : TDuration} {now now' : TTimestamp} {entry later : Entry}
    (h : entry.1 ≤ later.1) (hlater : later.1 ≤ now) (hnow : now ≤ now')
    (hin : inFrame frameDuration now' entry = true) : inFrame frameDuration now later = true := by
  have hlt := of_decide_eq_true hin
  exact decide_eq_true (UInt64.lt_of_le_of_lt (TTimestamp.sub_le_sub h hlater hnow) hlt)

/-- What carries `Recounted` through a run. -/
structure Inv (s : State) (g : Recount) : Prop extends Recounted s g where
  frameDuration : s.stat.frameDuration = TStat.DEFAULT_FRAME_DURATION
  bounded : ∀ entry ∈ g.entries, entry.1 ≤ s.clock
  ordered : g.entries.Pairwise fun entry later => entry.1 ≤ later.1
  global : s.stat.globalStat = tally g.entries

variable {s s' : State} {g : Recount} {e : Event}

theorem inv_start (clock : TTimestamp) : Inv (start clock) .start where
  frame := rfl
  sorted := .nil
  framed := rfl
  popped := rfl
  reports := rfl
  frameDuration := rfl
  bounded _ h := absurd h List.not_mem_nil
  ordered := .nil
  global := rfl

/-- What `ClearStatFrame` leaves when the clock moves on. -/
structure Cleared (s : State) (g : Recount) (now : TTimestamp) (stat : TStat) : Prop where
  frame : stat.frame = g.entries.filter (inFrame s.stat.frameDuration now)
  framed : stat.framedStat = tally stat.frame
  popped : g.entries = (g.popped ++ s.stat.popped now) ++ stat.frame
  rest : stat = { s.stat with frame := stat.frame, framedStat := stat.framedStat }

theorem cleared {now : TTimestamp} (h : Inv s g) (hnow : s.clock ≤ now) :
    Cleared s g now (s.stat.clearStatFrame now) := by
  have hclear := clearFrame_tally s.stat.frameDuration now s.stat.frame
  rw [← h.framed] at hclear
  have hframe : (s.stat.clearStatFrame now).frame =
      s.stat.frame.dropWhile fun entry => !inFrame s.stat.frameDuration now entry :=
    congrArg Prod.fst hclear
  have hframed : (s.stat.clearStatFrame now).framedStat =
      tally (s.stat.clearStatFrame now).frame := by
    rw [hframe]
    exact congrArg Prod.snd hclear
  refine ⟨?_, hframed, ?_, rfl⟩
  · rw [hframe, h.frame]
    apply Window.dropWhile_filter
    · intro entry hentry
      exact inFrame_of_le (TTimestamp.le_refl _) (h.bounded entry hentry) hnow
    · refine h.ordered.imp_of_mem fun hentry hlater hle => ?_
      apply inFrame_of_le hle (TTimestamp.le_trans (h.bounded _ hlater) hnow) (TTimestamp.le_refl _)
  · -- what is dropped is what the queue loses in length
    have hsplit : s.stat.popped now ++ (s.stat.clearStatFrame now).frame = s.stat.frame := by
      have hsuffix : (s.stat.clearStatFrame now).frame <:+ s.stat.frame :=
        hframe ▸ List.dropWhile_suffix _
      rw [List.suffix_iff_eq_drop.mp hsuffix]
      exact List.take_append_drop ..
    rw [List.append_assoc, hsplit]
    exact h.popped

theorem inFrame_self (now : TTimestamp) (isRead : Bool) :
    inFrame TStat.DEFAULT_FRAME_DURATION now (now, isRead) = true := by
  have hzero : (now - now : TDuration) = ⟨0⟩ := by
    show TDuration.mk _ = _
    rw [Int.sub_self]
    rfl
  rw [inFrame, hzero]
  rfl

theorem inv_step (h : Inv s g) (hstep : step s e = some s') : Inv s' (g.note e s s') := by
  cases step_cases hstep with
  | logAccess key isRead now hnow =>
      have hclear := cleared h hnow
      have hentries (s' : State) : (g.note (.logAccess key isRead now) s s').entries =
          g.entries ++ [(now, isRead)] := List.map_append
      have hframe : (s.stat.clearStatFrame now).frame ++ [(now, isRead)] =
          (g.entries ++ [(now, isRead)]).filter (inFrame s.stat.frameDuration now) := by
        rw [List.filter_append, ← hclear.frame, List.filter_cons_of_pos, List.filter_nil]
        rw [h.frameDuration]
        exact inFrame_self now isRead
      have hordered : (g.entries ++ [(now, isRead)]).Pairwise
          fun entry later => entry.1 ≤ later.1 := by
        refine List.pairwise_append.mpr ⟨h.ordered, List.pairwise_singleton .., ?_⟩
        intro entry hentry later hlater
        rw [List.mem_singleton.mp hlater]
        exact TTimestamp.le_trans (h.bounded entry hentry) hnow
      refine
        { frame := hframe.trans (congrArg _ (hentries _).symm)
          sorted := ?_
          framed := ?_
          popped := ?_
          reports := h.reports
          frameDuration := h.frameDuration
          bounded := ?_
          ordered := (hentries _).symm ▸ hordered
          global := ?_ }
      · show ((s.stat.clearStatFrame now).frame ++ [(now, isRead)]).Pairwise _
        rw [hframe]
        exact hordered.filter _
      · show (s.stat.clearStatFrame now).framedStat.increment isRead = tally (_ ++ [_])
        rw [hclear.framed, tally_concat]
      · rw [hentries, hclear.popped, List.append_assoc]
        rfl
      · intro entry hentry
        rw [hentries] at hentry
        rcases List.mem_append.mp hentry with hentry | hentry
        · exact TTimestamp.le_trans (h.bounded entry hentry) hnow
        · rw [List.mem_singleton.mp hentry]
          exact TTimestamp.le_refl now
      · rw [hentries, tally_concat, ← h.global]
        rfl
  | reportClear now hnow =>
      have hclear := cleared h hnow
      exact
        { frame := hclear.frame
          sorted := hclear.frame ▸ h.ordered.filter _
          framed := hclear.framed
          popped := hclear.popped
          reports := h.reports
          frameDuration := h.frameDuration
          bounded := fun entry hentry => TTimestamp.le_trans (h.bounded entry hentry) hnow
          ordered := h.ordered
          global := h.global }
  | reportCopy =>
      refine { h with reports := ?_ }
      show s.globalReports ++ [_] = g.reports ++ [_]
      rw [h.reports, h.framed, h.frame, h.global]

/-- In every run, the statistics of the frame are those of a recount of all accesses. -/
theorem recounted (clock : TTimestamp) (events : List Event) (s : State)
    (hrun : exec step (start clock) events = some s) :
    ∃ g, exec (instrument step Recount.note) (start clock, .start) events = some (s, g) ∧
      Recounted s g := by
  obtain ⟨g, hnoted, hinv⟩ := instrument_invariant Recount.note
    (fun _ _ _ _ hinv hstep => inv_step hinv hstep) (inv_start clock) hrun
  exact ⟨g, hnoted, hinv.toRecounted⟩

/-- A read and, three seconds later, a write; the first has left the frame when a call of
`LogAccess` comes between the sections of a report. -/
def betweenSections : List Event :=
  [.logAccess [107] true ⟨0⟩, .logAccess [107] false ⟨3000000000⟩, .reportClear ⟨4000000000⟩,
    .logAccess [108] true ⟨6000000000⟩, .reportCopy]

theorem recounted_betweenSections :
    ∃ s g, exec (instrument step Recount.note) (start ⟨0⟩, .start) betweenSections =
        some (s, g) ∧
      s.globalReports = [⟨⟨1, 1⟩, ⟨2, 1⟩⟩] ∧ Recounted s g := by
  have hrun : ∃ s, exec step (start ⟨0⟩) betweenSections = some s ∧
      s.globalReports = [⟨⟨1, 1⟩, ⟨2, 1⟩⟩] := ⟨_, rfl, rfl⟩
  obtain ⟨s, hs, hreports⟩ := hrun
  obtain ⟨g, hg, hrecounted⟩ := recounted ⟨0⟩ betweenSections s hs
  exact ⟨s, g, hg, hreports, hrecounted⟩

end GJServer.Logging
