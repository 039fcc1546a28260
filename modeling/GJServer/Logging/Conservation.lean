import GJServer.Library.Grouping
import GJServer.Logging.Recount
import Mathlib.Algebra.BigOperators.ModEq

/-!
The counters of all accesses. Every access is counted once under its key and once for the
whole server, and nothing else touches these counters; what `LogAccess` prints is the
count of its own key at its own turn, whenever the text gets into the log.
-/

namespace GJServer.Logging

open Library Exec Grouping Net Utils

def TKeyStat.counter (stat : TKeyStat) (isRead : Bool) : UInt32 :=
  if isRead then stat.nread else stat.nwrite

/-- How many of the accesses so far were reads, or writes. -/
def Recount.logged (g : Recount) (isRead : Bool) : ℕ :=
  g.entries.countP fun entry => entry.2 == isRead

/-- The counters of a key, which are zero before its first access. -/
def TStat.byKey (stat : TStat) (key : Str) : TKeyStat :=
  (stat.globalStatByKey.lookup key).getD .zero

theorem TStat.byKey_logAccess_self (stat : TStat) (key : Str) (isRead : Bool)
    (now : TTimestamp) :
    (stat.logAccess key isRead now).1.byKey key = (stat.byKey key).increment isRead := by
  simp only [byKey, logAccess, clearStatFrame, Finmap.lookup_insert, Option.getD_some]

theorem TStat.byKey_logAccess_of_ne (stat : TStat) {key other : Str} (h : key ≠ other)
    (isRead : Bool) (now : TTimestamp) :
    (stat.logAccess key isRead now).1.byKey other = stat.byKey other := by
  simp only [byKey, logAccess, clearStatFrame, Finmap.lookup_insert_of_ne _ h.symm]

/-- The counters of the server, those of its keys taken together, and the numbers of
accesses agree modulo `2 ^ 32`, and each access has printed the counts of its key up to
itself. -/
structure Conserved (s : State) (g : Recount) : Prop where
  global (isRead : Bool) :
    (s.stat.globalStat.counter isRead).toNat ≡ g.logged isRead [MOD 2 ^ 32]
  byKey (isRead : Bool) :
    ∑ key ∈ s.stat.globalStatByKey.keys, ((s.stat.byKey key).counter isRead).toNat ≡
      g.logged isRead [MOD 2 ^ 32]
  printed : s.accessReports.length = g.accesses.length
  report (n : ℕ) (access : Str × Entry) (h : g.accesses[n]? = some access) :
    s.accessReports[n]? =
      some ⟨access.1, tally (valuesAt access.1 (g.accesses.take (n + 1)))⟩

/-- What carries `Conserved` through a run. -/
structure Counted (s : State) (g : Recount) : Prop where
  global : s.stat.globalStat = tally g.entries
  byKey : ∀ key, s.stat.byKey key = tally (valuesAt key g.accesses)
  entered : ∀ access ∈ g.accesses, access.1 ∈ s.stat.globalStatByKey.keys
  printed : s.accessReports.length = g.accesses.length
  report (n : ℕ) (access : Str × Entry) (h : g.accesses[n]? = some access) :
    s.accessReports[n]? =
      some ⟨access.1, tally (valuesAt access.1 (g.accesses.take (n + 1)))⟩

variable {s s' : State} {g : Recount} {e : Event}

theorem counter_tally (entries : List Entry) (isRead : Bool) :
    (tally entries).counter isRead =
      .ofNat (entries.countP fun entry => entry.2 == isRead) := by
  cases isRead
  · simp [tally, TKeyStat.counter]
  · simp [tally, TKeyStat.counter]

theorem counter_tally_modEq (entries : List Entry) (isRead : Bool) :
    ((tally entries).counter isRead).toNat ≡
      entries.countP fun entry => entry.2 == isRead [MOD 2 ^ 32] := by
  rw [counter_tally, UInt32.toNat_ofNat']
  exact Nat.mod_modEq _ _

theorem counted_start (clock : TTimestamp) : Counted (start clock) .start where
  global := rfl
  byKey key := by simp [TStat.byKey, start, TStat.make, Recount.start, valuesAt]; rfl
  entered access h := absurd h List.not_mem_nil
  printed := rfl
  report n access h := by simp [Recount.start] at h

/-- The reports go on with the one of the access that has been added. -/
theorem Counted.report_concat (h : Counted s g) {access : Str × Entry} {stat : TKeyStat}
    (hstat : stat = tally (valuesAt access.1 (g.accesses ++ [access]))) (n : ℕ)
    (access' : Str × Entry) (haccess' : (g.accesses ++ [access])[n]? = some access') :
    (s.accessReports ++ [⟨access.1, stat⟩])[n]? =
      some ⟨access'.1, tally (valuesAt access'.1 ((g.accesses ++ [access]).take (n + 1)))⟩ := by
  rcases Nat.lt_or_ge n g.accesses.length with hn | hn
  · rw [List.getElem?_append_left hn] at haccess'
    rw [List.getElem?_append_left (h.printed ▸ hn), List.take_append_of_le_length hn]
    exact h.report n access' haccess'
  · obtain ⟨hlt, -⟩ := List.getElem?_eq_some_iff.mp haccess'
    rw [List.length_append, List.length_singleton] at hlt
    obtain rfl : n = g.accesses.length := by omega
    rw [List.getElem?_concat_length, Option.some.injEq] at haccess'
    subst haccess'
    rw [List.take_of_length_le (by simp), ← hstat, ← h.printed, List.getElem?_concat_length]

theorem counted_step (h : Counted s g) (hstep : step s e = some s') :
    Counted s' (g.note e s s') := by
  cases step_cases hstep with
  | logAccess key isRead now hnow =>
      have hself : ((s.stat.byKey key).increment isRead) =
          tally (valuesAt key (g.accesses ++ [(key, now, isRead)])) := by
        rw [valuesAt_concat_self, tally_concat, h.byKey]
      refine
        { global := ?_
          byKey := ?_
          entered := ?_
          printed := ?_
          report := ?_ }
      · show s.stat.globalStat.increment isRead = tally (List.map _ (g.accesses ++ [_]))
        rw [List.map_append, h.global]
        exact (tally_concat _ (now, isRead)).symm
      · intro other
        by_cases hother : key = other
        · subst hother
          exact (s.stat.byKey_logAccess_self key isRead now).trans hself
        · refine (s.stat.byKey_logAccess_of_ne hother isRead now).trans ?_
          rw [h.byKey]
          exact (congrArg tally (valuesAt_concat_of_ne hother _ _)).symm
      · intro access haccess
        apply Finmap.mem_keys.mpr
        apply Finmap.mem_insert.mpr
        rcases List.mem_append.mp haccess with haccess | haccess
        · exact .inr (Finmap.mem_keys.mp (h.entered access haccess))
        · exact .inl (congrArg Prod.fst (List.mem_singleton.mp haccess))
      · show (s.accessReports ++ [_]).length = (g.accesses ++ [_]).length
        rw [List.length_append, List.length_append, h.printed]
        rfl
      · exact h.report_concat hself
  | reportClear now hnow =>
      exact ⟨h.global, h.byKey, h.entered, h.printed, h.report⟩
  | reportCopy =>
      exact ⟨h.global, h.byKey, h.entered, h.printed, h.report⟩

theorem conserved_of_counted (h : Counted s g) : Conserved s g where
  global isRead := by
    rw [h.global]
    exact counter_tally_modEq g.entries isRead
  byKey isRead := by
    rw [Recount.logged, Recount.entries, countP_eq_sum _ h.entered]
    apply Nat.ModEq.sum
    intro key _
    rw [h.byKey]
    exact counter_tally_modEq _ isRead
  printed := h.printed
  report := h.report

/-- In every run, however the calls and the sections of the reports interleave, the
counters of all accesses are those of the accesses logged. -/
theorem accesses_conserved (clock : TTimestamp) (events : List Event) (s : State)
    (hrun : exec step (start clock) events = some s) :
    ∃ g, exec (instrument step Recount.note) (start clock, .start) events = some (s, g) ∧
      Conserved s g := by
  obtain ⟨g, hnoted, hcounted⟩ := instrument_invariant Recount.note
    (fun _ _ _ _ hcounted hstep => counted_step hcounted hstep) (counted_start clock) hrun
  exact ⟨g, hnoted, conserved_of_counted hcounted⟩

theorem accesses_conserved_betweenSections :
    ∃ s g, exec (instrument step Recount.note) (start ⟨0⟩, .start) betweenSections =
        some (s, g) ∧
      s.accessReports = [⟨[107], ⟨1, 0⟩⟩, ⟨[107], ⟨1, 1⟩⟩, ⟨[108], ⟨1, 0⟩⟩] ∧
      Conserved s g := by
  have hrun : ∃ s, exec step (start ⟨0⟩) betweenSections = some s ∧
      s.accessReports = [⟨[107], ⟨1, 0⟩⟩, ⟨[107], ⟨1, 1⟩⟩, ⟨[108], ⟨1, 0⟩⟩] := ⟨_, rfl, rfl⟩
  obtain ⟨s, hs, hreports⟩ := hrun
  obtain ⟨g, hg, hconserved⟩ := accesses_conserved ⟨0⟩ betweenSections s hs
  exact ⟨s, g, hg, hreports, hconserved⟩

end GJServer.Logging
