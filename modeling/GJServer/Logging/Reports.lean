import GJServer.Logging.Conservation

/-!
The reports of `ReportGlobalStat` beside each other. The frame is a part of the history
and the history only grows, but the counters are `uint32_t`: what a report prints of
both is the rest modulo `2 ^ 32`.
-/

namespace GJServer.Logging

open Library Exec Net Utils

/-- A report, and what an observer of the reads or of the writes knew when it copied the
counters: how many there had been, and how many of them the frame held. -/
structure Copied where
  report : GlobalReport
  logged : ℕ
  framed : ℕ
  deriving DecidableEq

/-- An observer with unbounded memory. -/
structure Watch where
  logged : ℕ
  reports : List Copied

namespace Watch

def start : Watch := ⟨0, []⟩

def note (isRead : Bool) (w : Watch) (e : Event) (s _ : State) : Watch :=
  match e with
  | .logAccess _ kind _ => { w with logged := w.logged + if kind == isRead then 1 else 0 }
  | .reportClear _ => w
  | .reportCopy =>
      { w with reports := w.reports ++ [
          { report := ⟨s.stat.framedStat, s.stat.globalStat⟩
            logged := w.logged
            framed := s.stat.frame.countP fun entry => entry.2 == isRead }] }

end Watch

namespace Copied

def frameCount (isRead : Bool) (x : Copied) : UInt32 := x.report.frame.counter isRead

def globalCount (isRead : Bool) (x : Copied) : UInt32 := x.report.global.counter isRead

/-- The frame holds the last accesses. Since the oldest of them the number of accesses has
not passed a multiple of `2 ^ 32`. -/
def Unwrapped (x : Copied) : Prop := (x.logged - x.framed) / 2 ^ 32 = x.logged / 2 ^ 32

/-- What is printed are the numbers modulo `2 ^ 32`. -/
structure Printed (isRead : Bool) (x : Copied) : Prop where
  within : x.framed ≤ x.logged
  frame : x.frameCount isRead = .ofNat x.framed
  global : x.globalCount isRead = .ofNat x.logged

end Copied

/-- The reports are those of the observer. The count of the frame does not exceed the global
one unless the number of accesses has passed a multiple of `2 ^ 32` since the oldest access
in the frame; then it does, if the frame holds fewer than `2 ^ 32`. A global count is not
below an earlier one unless the number has passed such a multiple in between. -/
structure Consistent (isRead : Bool) (s : State) (w : Watch) : Prop where
  reports : s.globalReports = w.reports.map Copied.report
  printed : ∀ x ∈ w.reports, x.Printed isRead
  frame : ∀ x ∈ w.reports, x.Unwrapped → x.frameCount isRead ≤ x.globalCount isRead
  exceeds : ∀ x ∈ w.reports, ¬ x.Unwrapped → x.framed < 2 ^ 32 →
    x.globalCount isRead < x.frameCount isRead
  global : w.reports.Pairwise fun x later => x.logged / 2 ^ 32 = later.logged / 2 ^ 32 →
    x.globalCount isRead ≤ later.globalCount isRead

/-- What carries `Consistent` through a run. -/
structure Watched (isRead : Bool) (g : Recount) (s : State) (w : Watch) : Prop where
  inv : Inv s g
  logged : w.logged = g.logged isRead
  reports : s.globalReports = w.reports.map Copied.report
  printed : ∀ x ∈ w.reports, x.Printed isRead
  bounded : ∀ x ∈ w.reports, x.logged ≤ w.logged
  ordered : w.reports.Pairwise fun x later => x.logged ≤ later.logged

variable {isRead : Bool} {s s' : State} {g : Recount} {w : Watch} {e : Event}

theorem ofNat_le_ofNat {m n : ℕ} (h : m ≤ n) (hwrap : m / 2 ^ 32 = n / 2 ^ 32) :
    UInt32.ofNat m ≤ UInt32.ofNat n := by
  rw [UInt32.le_iff_toNat_le, UInt32.toNat_ofNat', UInt32.toNat_ofNat']
  omega

theorem Copied.Printed.frame_le {x : Copied} (h : x.Printed isRead) (hwrap : x.Unwrapped) :
    x.frameCount isRead ≤ x.globalCount isRead := by
  have hwithin := h.within
  rw [h.frame, h.global, UInt32.le_iff_toNat_le, UInt32.toNat_ofNat', UInt32.toNat_ofNat']
  unfold Copied.Unwrapped at hwrap
  omega

theorem Copied.Printed.global_lt {x : Copied} (h : x.Printed isRead) (hwrap : ¬ x.Unwrapped)
    (hfew : x.framed < 2 ^ 32) : x.globalCount isRead < x.frameCount isRead := by
  have hwithin := h.within
  rw [h.frame, h.global, UInt32.lt_iff_toNat_lt, UInt32.toNat_ofNat', UInt32.toNat_ofNat']
  unfold Copied.Unwrapped at hwrap
  omega

/-- What the counters are at any moment. -/
theorem Inv.printed (h : Inv s g) (isRead : Bool) :
    Copied.Printed isRead ⟨⟨s.stat.framedStat, s.stat.globalStat⟩, g.logged isRead,
      s.stat.frame.countP fun entry => entry.2 == isRead⟩ where
  within := by
    rw [h.frame]
    exact List.Sublist.countP_le List.filter_sublist
  frame := by
    show s.stat.framedStat.counter isRead = _
    rw [h.framed, counter_tally]
  global := by
    show s.stat.globalStat.counter isRead = _
    rw [h.global, counter_tally, Recount.logged]

theorem watched_start (isRead : Bool) (clock : TTimestamp) :
    Watched isRead .start (start clock) .start where
  inv := inv_start clock
  logged := rfl
  reports := rfl
  printed _ h := absurd h List.not_mem_nil
  bounded _ h := absurd h List.not_mem_nil
  ordered := .nil

theorem watched_step (h : Watched isRead g s w) (hstep : step s e = some s') :
    Watched isRead (g.note e s s') s' (w.note isRead e s s') := by
  have hinv := inv_step h.inv hstep
  cases step_cases hstep with
  | logAccess key kind now hnow =>
      have hlogged : w.logged + (if kind == isRead then 1 else 0) =
          (g.note (.logAccess key kind now) s s).logged isRead := by
        rw [h.logged, Recount.logged, Recount.logged]
        simp only [Recount.entries, Recount.note, List.map_append, List.countP_append,
          List.map_cons, List.map_nil, List.countP_singleton]
      refine
        { inv := hinv
          logged := hlogged
          reports := h.reports
          printed := h.printed
          bounded := ?_
          ordered := h.ordered }
      intro x hx
      exact Nat.le_add_right_of_le (h.bounded x hx)
  | reportClear now hnow =>
      exact ⟨hinv, h.logged, h.reports, h.printed, h.bounded, h.ordered⟩
  | reportCopy =>
      refine
        { inv := hinv
          logged := h.logged
          reports := ?_
          printed := ?_
          bounded := ?_
          ordered := ?_ }
      · show s.globalReports ++ [_] = (w.reports ++ [_]).map Copied.report
        rw [List.map_append, h.reports]
        rfl
      · show ∀ x ∈ w.reports ++ [_], x.Printed isRead
        refine List.forall_mem_append.mpr ⟨h.printed, List.forall_mem_singleton.mpr ?_⟩
        rw [h.logged]
        exact h.inv.printed isRead
      · show ∀ x ∈ w.reports ++ [_], x.logged ≤ w.logged
        exact List.forall_mem_append.mpr
          ⟨h.bounded, List.forall_mem_singleton.mpr (Nat.le_refl _)⟩
      · refine List.pairwise_append.mpr ⟨h.ordered, List.pairwise_singleton .., ?_⟩
        intro x hx later hlater
        rw [List.mem_singleton.mp hlater]
        exact h.bounded x hx

theorem consistent_of_watched (h : Watched isRead g s w) : Consistent isRead s w where
  reports := h.reports
  printed := h.printed
  frame x hx := (h.printed x hx).frame_le
  exceeds x hx := (h.printed x hx).global_lt
  global := by
    refine h.ordered.imp_of_mem fun {x later} hx hlater hle hwrap => ?_
    rw [(h.printed x hx).global, (h.printed later hlater).global]
    exact ofNat_le_ofNat hle hwrap

/-! ### Reads at a steady pace -/

/-- The steady clock, so many microseconds after its start. -/
def microsecond (n : ℕ) : TTimestamp := ⟨.ofNat (1000 * n)⟩

def reads (n : ℕ) : List Event :=
  (List.range n).map fun i => .logAccess [107] true (microsecond i)

/-- A read every microsecond, a report, a read ten seconds later, and another report: what a
server goes through that wraps around. -/
def flood (n : ℕ) : List Event :=
  reads n ++ [.reportClear (microsecond n), .reportCopy] ++
    .logAccess [107] true (microsecond (n + 10000000)) ::
      [.reportClear (microsecond (n + 10000000)), .reportCopy]

theorem microsecond_toInt {n : ℕ} (h : n < 2 ^ 40) :
    (microsecond n).value.toInt = 1000 * (n : ℤ) := by
  rw [microsecond, Int64.toInt_ofNat_of_lt (by omega)]
  push_cast
  rfl

theorem microsecond_le {m n : ℕ} (h : m ≤ n) (hn : n < 2 ^ 40) :
    microsecond m ≤ microsecond n := by
  rw [TTimestamp.le_def, microsecond_toInt hn, microsecond_toInt (by omega)]
  omega

theorem Inv.log (h : Inv s g) (key : Str) (isRead : Bool) {now : TTimestamp}
    (hnow : s.clock ≤ now) :
    ∃ s' g', step s (.logAccess key isRead now) = some s' ∧ Inv s' g' ∧ s'.clock = now ∧
      g'.entries = g.entries ++ [(now, isRead)] ∧ s'.globalReports = s.globalReports := by
  obtain ⟨s', hstep, hclock, hreports⟩ : ∃ s', step s (.logAccess key isRead now) = some s' ∧
      s'.clock = now ∧ s'.globalReports = s.globalReports := ⟨_, if_pos hnow, rfl, rfl⟩
  exact ⟨s', _, hstep, inv_step h hstep, hclock, List.map_append, hreports⟩

theorem Inv.report (h : Inv s g) {now : TTimestamp} (hnow : s.clock ≤ now) :
    ∃ s' g', exec step s [.reportClear now, .reportCopy] = some s' ∧ Inv s' g' ∧
      s'.clock = now ∧ g'.entries = g.entries ∧
      s'.globalReports = s.globalReports ++
        [⟨tally (g.entries.filter (inFrame TStat.DEFAULT_FRAME_DURATION now)),
          tally g.entries⟩] := by
  obtain ⟨m, hclear, hclock, hreporting⟩ : ∃ m, step s (.reportClear now) = some m ∧
      m.clock = now ∧ 0 < m.reporting := ⟨_, if_pos hnow, rfl, Nat.succ_pos _⟩
  have hm := inv_step h hclear
  obtain ⟨s', hcopy, hclock'⟩ : ∃ s', step m .reportCopy = some s' ∧ s'.clock = m.clock :=
    ⟨_, if_pos hreporting, rfl⟩
  have hs' := inv_step hm hcopy
  refine ⟨s', _, ?_, hs', hclock'.trans hclock, rfl, ?_⟩
  · rw [exec_cons, hclear, Option.bind_some, exec_cons, hcopy]
    rfl
  · rw [hs'.reports, h.reports, ← hclock, ← hm.frameDuration]
    rfl

theorem exec_reads {n : ℕ} (hn : n < 2 ^ 40) :
    ∃ s g, exec step (start ⟨0⟩) (reads n) = some s ∧ Inv s g ∧ s.clock ≤ microsecond n ∧
      g.entries = ((List.range n).map fun i => (microsecond i, true)) ∧
      s.globalReports = [] := by
  induction n with
  | zero =>
      have hzero : TTimestamp.mk 0 ≤ microsecond 0 := TTimestamp.le_refl _
      exact ⟨_, _, rfl, inv_start ⟨0⟩, hzero, rfl, rfl⟩
  | succ n ih =>
      obtain ⟨s, g, hrun, hinv, hclock, hentries, hreports⟩ := ih (by omega)
      obtain ⟨s', g', hstep, hinv', hclock', hentries', hreports'⟩ := hinv.log [107] true hclock
      refine ⟨s', g', ?_, hinv', ?_, ?_, hreports'.trans hreports⟩
      · rw [reads, List.range_succ, List.map_append]
        exact exec_concat_eq_some.mpr ⟨s, hrun, hstep⟩
      · rw [hclock']
        exact microsecond_le (Nat.le_succ n) hn
      · rw [hentries', hentries, List.range_succ, List.map_append]
        rfl

/-- Ten seconds later only the last read is in the frame. -/
theorem filter_reads {n : ℕ} (hn : n + 10000000 < 2 ^ 40) :
    (((List.range n).map fun i => (microsecond i, true)) ++
      [(microsecond (n + 10000000), true)]).filter
        (inFrame TStat.DEFAULT_FRAME_DURATION (microsecond (n + 10000000))) =
      [(microsecond (n + 10000000), true)] := by
  rw [List.filter_append, List.filter_eq_nil_iff.mpr, List.nil_append,
    List.filter_cons_of_pos (inFrame_self _ _), List.filter_nil]
  intro entry hentry hin
  obtain ⟨i, hi, rfl⟩ := List.mem_map.mp hentry
  have hlt : (microsecond (n + 10000000) - microsecond i).microseconds < 5000000 :=
    of_decide_eq_true hin
  have hle : i ≤ n + 10000000 := by
    have := List.mem_range.mp hi
    omega
  have hsub := TTimestamp.sub_toNat (microsecond_le hle hn)
  rw [microsecond_toInt hn, microsecond_toInt (by omega)] at hsub
  have hbound := UInt64.lt_iff_toNat_lt.mp hlt
  have hi := List.mem_range.mp hi
  change _ < 5000000 at hbound
  omega

theorem tally_reads (n : ℕ) :
    tally ((List.range n).map fun i => (microsecond i, true)) = ⟨.ofNat n, 0⟩ := by
  simp only [tally, List.countP_map, Function.comp_def, List.countP_true, List.length_range,
    Bool.not_true, List.countP_false]
  rfl

theorem exec_flood {n : ℕ} (hn : n + 10000000 < 2 ^ 40) :
    ∃ s frame, exec step (start ⟨0⟩) (flood n) = some s ∧
      s.globalReports = [⟨frame, ⟨.ofNat n, 0⟩⟩, ⟨⟨1, 0⟩, ⟨.ofNat (n + 1), 0⟩⟩] := by
  obtain ⟨s, g, hrun, hinv, hclock, hentries, hreports⟩ := exec_reads (n := n) (by omega)
  obtain ⟨s₁, g₁, hreport, hinv₁, hclock₁, hentries₁, hreports₁⟩ := hinv.report hclock
  have hlater : s₁.clock ≤ microsecond (n + 10000000) := by
    rw [hclock₁]
    exact microsecond_le (by omega) hn
  obtain ⟨s₂, g₂, hlog, hinv₂, hclock₂, hentries₂, hreports₂⟩ := hinv₁.log [107] true hlater
  have hlater₂ : s₂.clock ≤ microsecond (n + 10000000) := hclock₂ ▸ TTimestamp.le_refl _
  obtain ⟨s₃, g₃, hreport', -, -, -, hreports₃⟩ := hinv₂.report hlater₂
  rw [hentries₁, hentries] at hentries₂
  have hflood : exec step (start ⟨0⟩) (flood n) = some s₃ := by
    refine exec_append_eq_some.mpr ⟨s₁, exec_append_eq_some.mpr ⟨s, hrun, hreport⟩, ?_⟩
    exact exec_cons_eq_some.mpr ⟨s₂, hlog, hreport'⟩
  rw [hreports₂, hreports₁, hreports, hentries, hentries₂, filter_reads hn, tally_concat,
    tally_reads] at hreports₃
  rw [UInt32.ofNat_add]
  exact ⟨s₃, _, hflood, hreports₃⟩

/-! ### What the reports say -/

/-- In every run, however long, the counts of the frame and of all accesses fit together
as far as 32 bits allow. -/
theorem reports_consistent (isRead : Bool) (clock : TTimestamp) (events : List Event)
    (s : State) (hrun : exec step (start clock) events = some s) :
    ∃ w, exec (instrument step (Watch.note isRead)) (start clock, .start) events = some (s, w) ∧
      Consistent isRead s w := by
  have hobserved := instrument_invariant (Watch.note isRead)
    (I := fun s w => ∃ g, Watched isRead g s w) ?_ ⟨.start, watched_start isRead clock⟩ hrun
  · obtain ⟨w, hnoted, g, hwatched⟩ := hobserved
    exact ⟨w, hnoted, consistent_of_watched hwatched⟩
  · rintro s w e s' ⟨g, hwatched⟩ hstep
    exact ⟨g.note e s s', watched_step hwatched hstep⟩

theorem reports_consistent_betweenSections :
    ∃ s w, exec (instrument step (Watch.note true)) (start ⟨0⟩, .start) betweenSections =
        some (s, w) ∧
      w.reports = [⟨⟨⟨1, 1⟩, ⟨2, 1⟩⟩, 2, 1⟩] ∧ Consistent true s w := by
  have hrun : ∃ p, exec (instrument step (Watch.note true)) (start ⟨0⟩, .start)
      betweenSections = some p ∧ p.2.reports = [⟨⟨⟨1, 1⟩, ⟨2, 1⟩⟩, 2, 1⟩] := ⟨_, rfl, rfl⟩
  obtain ⟨⟨s, w⟩, hp, hreports⟩ := hrun
  obtain ⟨w', hw', hconsistent⟩ := reports_consistent true ⟨0⟩ betweenSections s
    (exec_instrument.mp ⟨w, hp⟩)
  obtain rfl : w = w' := congrArg Prod.snd (Option.some.inj (hp.symm.trans hw'))
  exact ⟨s, w, hp, hreports, hconsistent⟩

/-- After `2 ^ 32` reads the counters of all accesses start again from zero. -/
theorem flood_inconsistent :
    ∃ s report later, exec step (start ⟨0⟩) (flood (2 ^ 32 - 1)) = some s ∧
      s.globalReports = [report, later] ∧ later.global.nread < later.frame.nread ∧
      later.global.nread < report.global.nread := by
  obtain ⟨s, frame, hrun, hreports⟩ := exec_flood (n := 2 ^ 32 - 1) (by omega)
  have hframe : UInt32.ofNat (2 ^ 32 - 1 + 1) < 1 := by decide
  have hglobal : UInt32.ofNat (2 ^ 32 - 1 + 1) < UInt32.ofNat (2 ^ 32 - 1) := by decide
  exact ⟨s, _, _, hrun, hreports, hframe, hglobal⟩

end GJServer.Logging
