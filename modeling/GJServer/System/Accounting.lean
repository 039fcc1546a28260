import GJServer.Logging.Conservation
import GJServer.System.Effects

/-!
The statistics of the running server. `TKVStorage::Get` and `TKVStorage::Set` call
`TStat::LogAccess` before they take the lock of the map, each in the handler of its
session, and the thread of the statistics prints its reports in between. The counters
are those of the commands of the clients: none that takes effect is left out, and none
is counted twice.
-/

namespace GJServer.System.Accounting

open Library Exec Linearization Grouping Net KVStorage Client Server Bytes Logging

variable {nclients : ℕ}

/-- `logged i` says that the handler of client `i` has called `LogAccess` and not yet come
to the lock; `accessed` are the commands in the order of these calls. -/
structure State (nclients : ℕ) where
  system : Bytes.State nclients
  stat : Logging.State
  logged : Fin nclients → Bool
  accessed : List (Op nclients)

inductive Event (nclients : ℕ)
  | run (e : Bytes.Event nclients)
  | access (i : Fin nclients) (now : Utils.TTimestamp)
  | reportClear (now : Utils.TTimestamp)
  | reportCopy

def start (file : Str) (commands : Fin nclients → List TCommandPair)
    (clock : Utils.TTimestamp) : State nclients where
  system := Bytes.start file commands
  stat := Logging.start clock
  logged := fun _ => false
  accessed := []

/-- Key and kind of the access that the handler of client `i` is about to make. -/
def pending (s : Bytes.State nclients) (i : Fin nclients) : Option (Str × Bool) :=
  match (s.links i).handler with
  | .getting key => some (key, true)
  | .setting =>
      match s.server.setters i with
      | .inserting key _ => some (key, false)
      | _ => none
  | _ => none

def step (path : String) (s : State nclients) : Event nclients → Option (State nclients)
  | .run e =>
      match committer e with
      | some i =>
          if s.logged i then
            (Bytes.step path s.system e).map fun system =>
              { s with system := system, logged := Function.update s.logged i false }
          else none
      | none => (Bytes.step path s.system e).map fun system => { s with system := system }
  | .access i now =>
      match pending s.system i with
      | some (key, isRead) =>
          if s.logged i then none
          else (Logging.step s.stat (.logAccess key isRead now)).map fun stat =>
            { s with stat := stat, logged := Function.update s.logged i true
                     accessed := s.accessed ++ [s.system.op i] }
      | none => none
  | .reportClear now =>
      (Logging.step s.stat (.reportClear now)).map fun stat => { s with stat := stat }
  | .reportCopy => (Logging.step s.stat .reportCopy).map fun stat => { s with stat := stat }

/-- Key and kind of the access that a command is. -/
def access (command : TCommandPair) : Str × Bool :=
  if command.cmd = ECMD.READ_REQUEST then (command.args, true)
  else ((splitKeyValue command.args).1, false)

def accessOf (commands : Fin nclients → List TCommandPair) (a : Op nclients) :
    Option (Str × Bool) :=
  (commands a.1)[a.2]?.map access

/-- Everything an event can do. -/
inductive Step (path : String) (s : State nclients) : Event nclients → State nclients → Prop
  | commit (e i system) (he : committer e = some i) (hlogged : s.logged i = true)
      (hstep : Bytes.step path s.system e = some system) :
      Step path s (.run e) { s with
        system := system, logged := Function.update s.logged i false }
  | move (e system) (he : committer e = none) (hstep : Bytes.step path s.system e = some system) :
      Step path s (.run e) { s with system := system }
  | access (i now key isRead stat) (hpending : pending s.system i = some (key, isRead))
      (hlogged : s.logged i = false)
      (hstep : Logging.step s.stat (.logAccess key isRead now) = some stat) :
      Step path s (.access i now) { s with
        stat := stat, logged := Function.update s.logged i true
        accessed := s.accessed ++ [s.system.op i] }
  | reportClear (now stat) (hstep : Logging.step s.stat (.reportClear now) = some stat) :
      Step path s (.reportClear now) { s with stat := stat }
  | reportCopy (stat) (hstep : Logging.step s.stat .reportCopy = some stat) :
      Step path s .reportCopy { s with stat := stat }

variable {path : String} {s s' : State nclients} {e : Event nclients}

theorem step_cases (h : step path s e = some s') : Step path s e s' := by
  cases e with
  | run e =>
      rw [step] at h
      split at h
      · next i he =>
          obtain ⟨hlogged, h⟩ := Option.ite_none_right_eq_some.mp h
          obtain ⟨system, hsystem, rfl⟩ := Option.map_eq_some_iff.mp h
          exact .commit e i system he hlogged hsystem
      · next he =>
          obtain ⟨system, hsystem, rfl⟩ := Option.map_eq_some_iff.mp h
          exact .move e system he hsystem
  | access i now =>
      rw [step] at h
      split at h
      · next key isRead hpending =>
          obtain ⟨hlogged, h⟩ := Option.ite_none_left_eq_some.mp h
          obtain ⟨stat, hstat, rfl⟩ := Option.map_eq_some_iff.mp h
          exact .access i now key isRead stat hpending (Bool.eq_false_of_not_eq_true hlogged) hstat
      · cases h
  | reportClear now =>
      obtain ⟨stat, hstat, rfl⟩ := Option.map_eq_some_iff.mp h
      exact .reportClear now stat hstat
  | reportCopy =>
      obtain ⟨stat, hstat, rfl⟩ := Option.map_eq_some_iff.mp h
      exact .reportCopy stat hstat

variable {file : Str} {commands : Fin nclients → List TCommandPair}
variable {c : Bytes.State nclients} {a : System.State nclients} {i : Fin nclients}

/-! ### Which command is counted -/

theorem pending_access (h : Refines c a) (ha : Inv file commands a) {key : Str} {isRead : Bool}
    (hpending : pending c i = some (key, isRead)) :
    accessOf commands (c.op i) = some (key, isRead) ∧ c.op i ∉ commits c.log := by
  have hi := h.links i
  have hstage := ha.stage i
  rw [pending, hi.handler, h.server] at hpending
  rw [h.log, Bytes.State.op, hi.results, accessOf]
  generalize a.links i = link at hpending hstage
  cases hstage with
  | getting todo results key' hcommand hsetter hcall hcommit =>
      obtain ⟨rfl, rfl⟩ := Prod.mk.inj (Option.some.inj hpending)
      rw [hcommand]
      exact ⟨rfl, hcommit⟩
  | inserting todo results args hcommand hsetter hcall hcommit =>
      simp only [hsetter, Option.some.injEq, Prod.mk.injEq] at hpending
      obtain ⟨rfl, rfl⟩ := hpending
      rw [hcommand]
      exact ⟨rfl, hcommit⟩
  | marking todo results args hcommand hsetter hcommit =>
      simp only [hsetter] at hpending
      cases hpending
  | _ => cases hpending

/-- Every command is counted once, before it takes effect, and at most one of each client
has been counted and not taken effect. -/
structure Booked (s : State nclients) : Prop where
  once : s.accessed.Nodup
  before : ∀ x ∈ commits s.system.log, x ∈ s.accessed
  ahead : ∀ x ∈ s.accessed, x ∈ commits s.system.log ∨
    s.logged x.1 = true ∧ x = s.system.op x.1
  current : ∀ i, s.logged i = true →
    s.system.op i ∈ s.accessed ∧ s.system.op i ∉ commits s.system.log

/-- The statistics have been told of just these accesses. -/
def Told (commands : Fin nclients → List TCommandPair) (s : State nclients) : Prop :=
  ∃ g, Counted s.stat g ∧
    g.accesses.map (fun x => some (x.1, x.2.2)) = s.accessed.map (accessOf commands)

structure Kept (path : String) (file : Str) (commands : Fin nclients → List TCommandPair)
    (s : State nclients) : Prop where
  system : ∃ moves, exec (Bytes.step path) (Bytes.start file commands) moves = some s.system
  booked : Booked s
  told : Told commands s

theorem kept_start (path : String) (file : Str) (commands : Fin nclients → List TCommandPair)
    (clock : Utils.TTimestamp) : Kept path file commands (start file commands clock) where
  system := ⟨[], rfl⟩
  booked := ⟨List.nodup_nil, fun _ h => h, fun _ h => (List.not_mem_nil h).elim,
    fun _ h => by cases h⟩
  told := ⟨.start, counted_start clock, rfl⟩

theorem Booked.commit (h : Booked s) {system : Bytes.State nclients} (hlogged : s.logged i = true)
    (hcommits : commits system.log = commits s.system.log ++ [s.system.op i])
    (hop : ∀ j, system.op j = s.system.op j) :
    Booked { s with system := system, logged := Function.update s.logged i false } := by
  have hmem {x} : x ∈ commits system.log ↔ x ∈ commits s.system.log ∨ x = s.system.op i := by
    rw [hcommits, List.mem_append, List.mem_singleton]
  refine ⟨h.once, fun x hx => ?_, fun x hx => ?_, fun j hj => ?_⟩
  · rcases hmem.mp hx with hx | rfl
    · exact h.before x hx
    · exact (h.current i hlogged).1
  · rcases h.ahead x hx with hx | ⟨hlogged', hx⟩
    · exact Or.inl (hmem.mpr (Or.inl hx))
    · by_cases hi : x.1 = i
      · exact Or.inl (hmem.mpr (Or.inr (hi ▸ hx)))
      · exact Or.inr ⟨(Function.update_of_ne hi ..).trans hlogged', hx.trans (hop x.1).symm⟩
  · have hne : j ≠ i := fun heq => by
      subst heq
      exact Bool.false_ne_true ((Function.update_self ..).symm.trans hj)
    obtain ⟨hcurrent, hnew⟩ := h.current j ((Function.update_of_ne hne ..).symm.trans hj)
    rw [hop, hmem, not_or]
    exact ⟨hcurrent, hnew, fun heq => hne (Prod.mk.inj heq).1⟩

theorem Booked.quiet (h : Booked s) {system : Bytes.State nclients}
    (hcommits : commits system.log = commits s.system.log)
    (hop : ∀ j, system.op j = s.system.op j ∨ s.system.op j ∈ commits s.system.log) :
    Booked { s with system := system } := by
  have hstays {j} (hj : s.logged j = true) : system.op j = s.system.op j :=
    (hop j).resolve_right (h.current j hj).2
  refine ⟨h.once, fun x hx => h.before x (hcommits ▸ hx), fun x hx => ?_, fun j hj => ?_⟩
  · rcases h.ahead x hx with hx | ⟨hlogged, hx⟩
    · exact Or.inl (hcommits.symm ▸ hx)
    · exact Or.inr ⟨hlogged, hx.trans (hstays hlogged).symm⟩
  · rw [hstays hj, hcommits]
    exact h.current j hj

theorem Booked.logAccess (h : Booked s) {stat : Logging.State} (hlogged : s.logged i = false)
    (hnew : s.system.op i ∉ commits s.system.log) :
    Booked { s with
      stat := stat, logged := Function.update s.logged i true
      accessed := s.accessed ++ [s.system.op i] } := by
  have hfresh : s.system.op i ∉ s.accessed := fun hmem => by
    rcases h.ahead _ hmem with hmem | ⟨htrue, -⟩
    · exact hnew hmem
    · exact Bool.false_ne_true (hlogged.symm.trans htrue)
  refine ⟨?_, fun x hx => List.mem_append_left _ (h.before x hx), fun x hx => ?_,
    fun j hj => ?_⟩
  · exact List.nodup_append.mpr ⟨h.once, List.nodup_singleton _, fun x hx y hy =>
      List.mem_singleton.mp hy ▸ fun heq => hfresh (heq ▸ hx)⟩
  · rcases List.mem_append.mp hx with hx | hx
    · refine (h.ahead x hx).imp_right fun ⟨hlogged', hx⟩ => ⟨?_, hx⟩
      by_cases hi : x.1 = i
      · rw [hi]
        exact Function.update_self ..
      · exact (Function.update_of_ne hi ..).trans hlogged'
    · obtain rfl := List.mem_singleton.mp hx
      exact Or.inr ⟨Function.update_self .., rfl⟩
  · by_cases hi : j = i
    · subst hi
      exact ⟨List.mem_append_right _ (List.mem_singleton_self _), hnew⟩
    · obtain ⟨hmem, hcommit⟩ := h.current j ((Function.update_of_ne hi ..).symm.trans hj)
      exact ⟨List.mem_append_left _ hmem, hcommit⟩

theorem kept_step (hcommands : ∀ i, ∀ command ∈ commands i, Sendable command)
    (hfile : ∀ key value, (loadText file ∅).lookup key = some value →
      Message.Small ⟨ECMD.READ_RESPONSE, value⟩)
    (h : Kept path file commands s) (hstep : step path s e = some s') :
    Kept path file commands s' := by
  obtain ⟨⟨moves, hmoves⟩, hbooked, g, hg, haccesses⟩ := h
  obtain ⟨-, a, -, hrefines, ha, -⟩ := refined_run hcommands hfile hmoves
  cases step_cases hstep with
  | commit move i system hmove hlogged hsystem =>
      obtain ⟨hcommits, hop⟩ := commit_step hmove hsystem
      exact ⟨⟨_, exec_concat_eq_some.mpr ⟨_, hmoves, hsystem⟩⟩,
        hbooked.commit hlogged hcommits hop, g, hg, haccesses⟩
  | move move system hmove hsystem =>
      obtain ⟨hcommits, hop⟩ := quiet_step hrefines ha hmove hsystem
      exact ⟨⟨_, exec_concat_eq_some.mpr ⟨_, hmoves, hsystem⟩⟩, hbooked.quiet hcommits hop,
        g, hg, haccesses⟩
  | access i now key isRead stat hpending hlogged hstat =>
      obtain ⟨haccess, hnew⟩ := pending_access hrefines ha hpending
      refine ⟨⟨moves, hmoves⟩, hbooked.logAccess hlogged hnew, _, counted_step hg hstat, ?_⟩
      simp only [Recount.note, List.map_append, haccesses, haccess, List.map_cons, List.map_nil]
  | reportClear now stat hstat =>
      exact ⟨⟨moves, hmoves⟩, ⟨hbooked.once, hbooked.before, hbooked.ahead, hbooked.current⟩,
        _, counted_step hg hstat, haccesses⟩
  | reportCopy stat hstat =>
      exact ⟨⟨moves, hmoves⟩, ⟨hbooked.once, hbooked.before, hbooked.ahead, hbooked.current⟩,
        _, counted_step hg hstat, haccesses⟩

/-! ### The counters -/

/-- How many of the commands that have been counted are accesses with `p`. -/
def State.counted (commands : Fin nclients → List TCommandPair) (s : State nclients)
    (p : Str × Bool → Bool) : ℕ :=
  s.accessed.countP fun x => (accessOf commands x).any p

/-- How many commands there are that are accesses with `p`. -/
def requested (commands : Fin nclients → List TCommandPair) (p : Str × Bool → Bool) : ℕ :=
  ∑ i, (commands i).countP fun command => p (access command)

theorem countP_valuesAt (key : Str) (q : Entry → Bool) (l : List (Str × Entry)) :
    (valuesAt key l).countP q = l.countP fun x => decide (x.1 = key) && q x.2 := by
  rw [valuesAt, List.countP_map, List.countP_filter]
  exact List.countP_congr fun x _ => by simp [and_comm]

theorem Told.countP_eq {g : Recount}
    (h : g.accesses.map (fun x => some (x.1, x.2.2)) = s.accessed.map (accessOf commands))
    (p : Str × Bool → Bool) :
    (g.accesses.countP fun x => p (x.1, x.2.2)) = s.counted commands p := by
  have hcount := congrArg (List.countP fun x => x.any p) h
  rw [List.countP_map, List.countP_map] at hcount
  exact hcount

theorem Told.counter_modEq (h : Told commands s) (isRead : Bool) :
    (s.stat.stat.globalStat.counter isRead).toNat ≡
      s.counted commands (fun x => x.2 == isRead) [MOD 2 ^ 32] := by
  obtain ⟨g, hg, haccesses⟩ := h
  rw [hg.global, ← Told.countP_eq haccesses]
  have hcount : (g.entries.countP fun entry => entry.2 == isRead) =
      g.accesses.countP fun x => x.2.2 == isRead := List.countP_map
  exact hcount ▸ counter_tally_modEq g.entries isRead

theorem Told.byKey_modEq (h : Told commands s) (key : Str) (isRead : Bool) :
    ((s.stat.stat.byKey key).counter isRead).toNat ≡
      s.counted commands (fun x => x == (key, isRead)) [MOD 2 ^ 32] := by
  obtain ⟨g, hg, haccesses⟩ := h
  rw [hg.byKey, ← Told.countP_eq haccesses]
  have hcount : ((valuesAt key g.accesses).countP fun entry => entry.2 == isRead) =
      g.accesses.countP fun x => (x.1, x.2.2) == (key, isRead) := by
    rw [countP_valuesAt]
    exact List.countP_congr fun x _ => by simp
  exact hcount ▸ counter_tally_modEq _ isRead

/-- When all commands have been answered, all have been counted. -/
theorem Booked.counted_eq (h : Booked s) (hall : ∀ i k, (i, k) ∈ s.accessed ↔
    k < (commands i).length) (p : Str × Bool → Bool) :
    s.counted commands p = requested commands p := by
  let keyed := s.accessed.map fun x => (x.1, accessOf commands x)
  have hkeyed : s.counted commands p = (keyed.map Prod.snd).countP fun x => x.any p := by
    rw [List.map_map, List.countP_map]
    rfl
  have hsum : (keyed.map Prod.snd).countP (fun x => x.any p) =
      ∑ i, (valuesAt i keyed).countP fun x => x.any p :=
    countP_eq_sum _ fun _ _ => Finset.mem_univ _
  rw [hkeyed, hsum]
  refine Finset.sum_congr rfl fun i _ => ?_
  have hperm : (s.accessed.filter fun x => x.1 = i).Perm
      ((List.range (commands i).length).map fun k => (i, k)) := by
    refine (List.perm_ext_iff_of_nodup (h.once.filter _) ?_).mpr fun x => ?_
    · exact List.nodup_range.map fun j k hjk => (Prod.mk.inj hjk).2
    · obtain ⟨j, k⟩ := x
      simp only [List.mem_filter, hall, decide_eq_true_eq, List.mem_map, List.mem_range,
        Prod.mk.injEq]
      constructor
      · rintro ⟨hk, rfl⟩
        exact ⟨k, hk, rfl, rfl⟩
      · rintro ⟨k, hk, rfl, rfl⟩
        exact ⟨hk, rfl⟩
  calc (valuesAt i keyed).countP (fun x => x.any p)
      = (s.accessed.filter fun x => x.1 = i).countP fun x => (accessOf commands x).any p := by
        rw [valuesAt, List.countP_map, List.filter_map, List.countP_map]
        rfl
    _ = (List.range (commands i).length).countP
          fun k => (accessOf commands (i, k)).any p := by
        rw [hperm.countP_eq, List.countP_map]
        rfl
    _ = (commands i).countP fun command => p (access command) := by
        have hcommands : (List.range (commands i).length).map (fun k => accessOf commands (i, k)) =
            (commands i).map fun command => some (access command) := by
          apply List.ext_getElem
          · simp
          · intro k hk hk'
            simp [accessOf, List.getElem?_eq_getElem (by simpa using hk')]
        have hcount := congrArg (List.countP fun x => x.any p) hcommands
        rw [List.countP_map, List.countP_map] at hcount
        exact hcount

/-- The commands that the statistics count, at any moment of a run. -/
structure Accounted (path : String) (file : Str) (commands : Fin nclients → List TCommandPair)
    (s : State nclients) : Prop where
  undisturbed : ∃ moves, exec (Bytes.step path) (Bytes.start file commands) moves = some s.system
  once : s.accessed.Nodup
  before : ∀ x ∈ commits s.system.log, x ∈ s.accessed
  ahead : ∀ x ∈ s.accessed, x ∈ commits s.system.log ∨ x = s.system.op x.1
  global (isRead : Bool) : (s.stat.stat.globalStat.counter isRead).toNat ≡
    s.counted commands (fun x => x.2 == isRead) [MOD 2 ^ 32]
  byKey (key : Str) (isRead : Bool) : ((s.stat.stat.byKey key).counter isRead).toNat ≡
    s.counted commands (fun x => x == (key, isRead)) [MOD 2 ^ 32]

theorem accounted_of_kept (h : Kept path file commands s) : Accounted path file commands s where
  undisturbed := h.system
  once := h.booked.once
  before := h.booked.before
  ahead x hx := (h.booked.ahead x hx).imp_right And.right
  global := h.told.counter_modEq
  byKey := h.told.byKey_modEq

theorem all_accessed (hcommands : ∀ i, ∀ command ∈ commands i, Sendable command)
    (hfile : ∀ key value, (loadText file ∅).lookup key = some value →
      Message.Small ⟨ECMD.READ_RESPONSE, value⟩)
    (h : Kept path file commands s) (hdone : ∀ i, (s.system.links i).todo = [])
    (i : Fin nclients) (k : ℕ) : (i, k) ∈ s.accessed ↔ k < (commands i).length := by
  obtain ⟨⟨moves, hmoves⟩, hbooked, g, hg, haccesses⟩ := h
  obtain ⟨-, a, -, hrefines, ha, -⟩ := refined_run hcommands hfile hmoves
  constructor
  · intro hmem
    have haccess := List.mem_map_of_mem (f := accessOf commands) hmem
    rw [← haccesses] at haccess
    obtain ⟨x, -, hx⟩ := List.mem_map.mp haccess
    obtain ⟨command, hcommand, -⟩ := Option.map_eq_some_iff.mp hx.symm
    exact (List.getElem?_eq_some_iff.mp hcommand).1
  · intro hk
    have hdone' := (hrefines.links i).todo.symm.trans (hdone i)
    exact hbooked.before _ (hrefines.log ▸ (committed_of_done ha hdone' hk).1)

/-- The counters of the statistics are those of the commands of all clients. -/
theorem accounted (path : String) (file : Str) (commands : Fin nclients → List TCommandPair)
    (hcommands : ∀ i, ∀ command ∈ commands i, Sendable command)
    (hfile : ∀ key value, (loadText file ∅).lookup key = some value →
      Message.Small ⟨ECMD.READ_RESPONSE, value⟩)
    (clock : Utils.TTimestamp) (events : List (Event nclients)) (s : State nclients)
    (hrun : exec (step path) (start file commands clock) events = some s) :
    Accounted path file commands s ∧ ((∀ i, (s.system.links i).todo = []) → ∀ isRead,
      (s.stat.stat.globalStat.counter isRead).toNat ≡
        requested commands (fun x => x.2 == isRead) [MOD 2 ^ 32] ∧
      ∀ key, ((s.stat.stat.byKey key).counter isRead).toNat ≡
        requested commands (fun x => x == (key, isRead)) [MOD 2 ^ 32]) := by
  have h : Kept path file commands s := exec_invariant
    (fun _ _ _ h hstep => kept_step hcommands hfile h hstep)
    (kept_start path file commands clock) hrun
  have haccounted := accounted_of_kept h
  refine ⟨haccounted, fun hdone isRead => ?_⟩
  have hall := all_accessed hcommands hfile h hdone
  refine ⟨?_, fun key => ?_⟩
  · rw [← h.booked.counted_eq hall]
    exact haccounted.global isRead
  · rw [← h.booked.counted_eq hall]
    exact haccounted.byKey key isRead

/-- A client gets `k`, with a report on the way. -/
def oneGet : Fin 1 → List TCommandPair := fun _ => [⟨ECMD.READ_REQUEST, [107]⟩]

theorem accounted_oneGet :
    ∃ s, exec (step "kvfile.txt") (start [] oneGet ⟨0⟩)
        [.run (.send 0), .run (.sendUp 0 0 9), .run (.readUp 0 8), .run (.readUp 0 1),
          .access 0 ⟨5⟩, .reportClear ⟨6⟩, .run (.get 0), .reportCopy, .run (.reply 0),
          .run (.sendDown 0 0 8), .run (.readDown 0 8), .run (.resume 0)] = some s ∧
      (s.stat.stat.globalStat.counter true).toNat ≡
        requested oneGet (fun x => x.2 == true) [MOD 2 ^ 32] := by
  have hcommands : ∀ i, ∀ command ∈ oneGet i, Sendable command := fun _ =>
    List.forall_mem_singleton.mpr (Sendable.get (by decide))
  have hrun : ∃ s, exec (step "kvfile.txt") (start [] oneGet ⟨0⟩)
      [.run (.send 0), .run (.sendUp 0 0 9), .run (.readUp 0 8), .run (.readUp 0 1),
        .access 0 ⟨5⟩, .reportClear ⟨6⟩, .run (.get 0), .reportCopy, .run (.reply 0),
        .run (.sendDown 0 0 8), .run (.readDown 0 8), .run (.resume 0)] = some s ∧
      ∀ i, (s.system.links i).todo = [] := ⟨_, rfl, by decide⟩
  obtain ⟨s, hs, hdone⟩ := hrun
  exact ⟨s, hs, ((accounted "kvfile.txt" [] oneGet hcommands small_loadText_nil ⟨0⟩ _ s hs).2
    hdone true).1⟩

end GJServer.System.Accounting
