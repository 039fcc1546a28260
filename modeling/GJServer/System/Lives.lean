import GJServer.Server.Durability
import GJServer.System.Effects
import GJServer.System.Isolation

/-!
The lives of a server, each of which ends with the death of the process at any moment and
leaves its storage file to the next. What a life has done to the map survives up to some
point in the order in which its commands have taken effect, and this point lies behind
every set that had been answered when a run of `UpdateFile` began that came to its end.

The replacement of the file is one step here, as in `Server.Runtime`.
-/

namespace GJServer.System.Lives

open Library Exec Linearization Net KVStorage Client Server Bytes

variable {nclients : ℕ} {path : String} {file : Str}
variable {commands : Fin nclients → List TCommandPair}
variable {c c' : Bytes.State nclients} {a a' : System.State nclients} {i : Fin nclients}

/-- What the clients may send: what a session can hold and the file can represent. -/
structure Storable (command : TCommandPair) : Prop where
  sendable : Sendable command
  line : NEWLINE ∉ command.args

theorem representable_of_pairOf {command : TCommandPair} (h : NEWLINE ∉ command.args)
    {pair : Str × Str} (hpair : pairOf command = some pair) : Representable pair.1 pair.2 := by
  obtain ⟨-, hpair⟩ := Option.ite_none_right_eq_some.mp hpair
  obtain rfl := Option.some.inj hpair
  exact representable_splitKeyValue h

theorem representable_setsOf (hcommands : ∀ i, ∀ command ∈ commands i, Storable command)
    {order : List (Op nclients)} {pair : Str × Str} (hpair : pair ∈ setsOf commands order) :
    Representable pair.1 pair.2 := by
  obtain ⟨x, -, hx⟩ := List.mem_filterMap.mp hpair
  obtain ⟨command, hcommand, hpair⟩ := Option.bind_eq_some_iff.mp hx
  exact representable_of_pairOf
    (hcommands x.1 command (List.mem_of_getElem? hcommand)).line hpair

theorem storable_of_inv (hcommands : ∀ i, ∀ command ∈ commands i, Storable command)
    (ha : Inv file commands a) : Runtime.Storable a.server where
  loaded := ha.loaded ▸ representable_loadText file representable_empty
  sets pair hpair := representable_setsOf hcommands (ha.sets ▸ hpair)
  setters i key value hi := by
    have hstage := ha.stage i
    generalize a.links i = link at hstage
    cases hstage with
    | inserting todo results args hcommand hsetter hcall hcommit =>
        obtain ⟨rfl, rfl⟩ := Runtime.Setter.inserting.inj (hsetter.symm.trans hi)
        exact representable_splitKeyValue
          (hcommands i _ (List.mem_of_getElem? hcommand)).line
    | ready todo results hsetter => cases hsetter.symm.trans hi
    | requested todo results command message hcommand hmessage hsetter =>
        cases hsetter.symm.trans hi
    | getting todo results key' hcommand hsetter => cases hsetter.symm.trans hi
    | marking todo results args hcommand hsetter => cases hsetter.symm.trans hi
    | answering todo results command response hcommand hsetter => cases hsetter.symm.trans hi
    | responded todo results command response hcommand hsetter => cases hsetter.symm.trans hi

/-! ### The flag -/

/-- The response to the current command of the client has been made. -/
def Answering (link : System.Link) : Prop :=
  (∃ response, link.handler = .answering response) ∨ link.responses ≠ []

def IsSet (commands : Fin nclients → List TCommandPair) (x : Op nclients) : Prop :=
  ((commands x.1)[x.2]?.bind pairOf).isSome

/-- Every set that has been answered has stored the flag. -/
structure Flagged (commands : Fin nclients → List TCommandPair) (a : System.State nclients) :
    Prop where
  answered : ∀ i k, k < (a.links i).results.length → IsSet commands (i, k) →
    a.server.storage.isMapDirty = true
  answering : ∀ i, Answering (a.links i) → IsSet commands (i, (a.links i).results.length) →
    a.server.storage.isMapDirty = true

theorem flagged_start : Flagged commands (System.start file commands) where
  answered _ _ h := absurd h (Nat.not_lt_zero _)
  answering _ h := by
    rcases h with ⟨response, hresponse⟩ | hresponses
    · cases hresponse
    · exact absurd rfl hresponses

/-- A step of client `i` that does not end its command. -/
theorem Flagged.frame (h : Flagged commands a) {link : System.Link}
    (hlinks : a'.links = Function.update a.links i link)
    (hdirty : a.server.storage.isMapDirty = true → a'.server.storage.isMapDirty = true)
    (hresults : link.results = (a.links i).results)
    (hanswering : Answering link → Answering (a.links i) ∨
      (IsSet commands (i, link.results.length) → a'.server.storage.isMapDirty = true)) :
    Flagged commands a' where
  answered j k hk hset := by
    rw [hlinks] at hk
    by_cases hj : j = i
    · subst hj
      rw [Function.update_self, hresults] at hk
      exact hdirty (h.answered j k hk hset)
    · rw [Function.update_of_ne hj] at hk
      exact hdirty (h.answered j k hk hset)
  answering j hanswer hset := by
    rw [hlinks] at hanswer hset
    by_cases hj : j = i
    · subst hj
      rw [Function.update_self] at hanswer hset
      rcases hanswering hanswer with hold | hnew
      · exact hdirty (h.answering j hold (hresults ▸ hset))
      · exact hnew hset
    · rw [Function.update_of_ne hj] at hanswer hset
      exact hdirty (h.answering j hanswer hset)

/-- The client goes on with the answer to its command. -/
theorem Flagged.resume (h : Flagged commands a) {link : System.Link} {result : Result}
    (hlinks : a'.links = Function.update a.links i link) (hserver : a'.server = a.server)
    (hresults : link.results = (a.links i).results ++ [result])
    (hold : Answering (a.links i)) (hnew : ¬Answering link) : Flagged commands a' where
  answered j k hk hset := by
    rw [hserver]
    rw [hlinks] at hk
    by_cases hj : j = i
    · subst hj
      rw [Function.update_self, hresults, List.length_append, List.length_singleton] at hk
      rcases Nat.lt_succ_iff_lt_or_eq.mp hk with hk | rfl
      · exact h.answered j k hk hset
      · exact h.answering j hold hset
    · rw [Function.update_of_ne hj] at hk
      exact h.answered j k hk hset
  answering j hanswer hset := by
    rw [hserver]
    rw [hlinks] at hanswer hset
    by_cases hj : j = i
    · subst hj
      rw [Function.update_self] at hanswer
      exact absurd hanswer hnew
    · rw [Function.update_of_ne hj] at hanswer hset
      exact h.answering j hanswer hset

theorem Flagged.receive (h : Flagged commands a) {command : TCommandPair}
    {todo : List TCommandPair} {message : Str} (hhandler : (a.links i).handler = .idle)
    (hresponses : (a.links i).responses = [message]) :
    Flagged commands (System.receive a i command todo message []) := by
  have hold : Answering (a.links i) := by
    refine Or.inr ?_
    rw [hresponses]
    exact List.cons_ne_nil _ _
  have hnew {link : System.Link} (hidle : link.handler = .idle) (hnone : link.responses = []) :
      ¬Answering link := by
    rintro (⟨response, hanswering⟩ | hne)
    · cases hidle.symm.trans hanswering
    · exact hne hnone
  rw [System.receive]
  split
  · exact h.resume rfl rfl rfl hold (hnew hhandler rfl)
  · exact h.resume rfl rfl rfl hold (hnew hhandler rfl)
  · exact h.resume rfl rfl rfl hold (hnew hhandler rfl)

/-- A handler that starts has answered nothing yet. -/
theorem Flagged.handle (h : Flagged commands a) {message : Str} {rest : List Str}
    (hstep : System.handle path a i message rest = some a') : Flagged commands a' := by
  have hnone {handler : System.Handler} (hhandler : ∀ r, handler ≠ .answering r) :
      Answering { a.links i with requests := rest, handler := handler } →
        Answering (a.links i) := by
    rintro (⟨response, hresponse⟩ | hresponses)
    · exact absurd hresponse (hhandler response)
    · exact Or.inr hresponses
  rw [System.handle] at hstep
  split at hstep
  · obtain rfl := Option.some.inj hstep
    exact h.frame rfl id rfl fun hanswer => Or.inl (hnone (by simp) hanswer)
  split at hstep
  · obtain rfl := Option.some.inj hstep
    exact h.frame rfl id rfl fun hanswer => Or.inl (hnone (by simp) hanswer)
  split at hstep
  · obtain ⟨server, hserver, rfl⟩ := Option.map_eq_some_iff.mp hstep
    exact h.frame rfl (Runtime.dirty_step · (Runtime.step_cases hserver)) rfl
      fun hanswer => Or.inl (hnone (by simp) hanswer)
  · obtain rfl := Option.some.inj hstep
    exact h.frame rfl id rfl Or.inl

theorem flagged_step {e : System.Event nclients} (ha : Inv file commands a)
    (h : Flagged commands a) (hstep : System.step path a e = some a') : Flagged commands a' := by
  cases e with
  | send i =>
      simp only [System.step] at hstep
      split at hstep
      · split at hstep
        · obtain rfl := Option.some.inj hstep
          exact h.frame rfl id rfl Or.inl
        · obtain rfl := Option.some.inj hstep
          exact h.frame rfl id rfl Or.inl
      · cases hstep
  | handle i =>
      simp only [System.step] at hstep
      split at hstep
      · exact h.handle hstep
      · cases hstep
  | get i =>
      have hstage := ha.stage i
      generalize hlink : a.links i = link at hstage
      cases hstage with
      | getting todo results key hcommand hsetter hcall hcommit =>
          simp only [System.step, hlink, Option.some.injEq] at hstep
          subst hstep
          refine h.frame rfl id (by rw [hlink]) fun _ => Or.inr fun hset => ?_
          rw [IsSet] at hset
          dsimp only at hset
          rw [hcommand] at hset
          cases hset
      | _ =>
          simp only [System.step, hlink] at hstep
          cases hstep
  | insert i =>
      rw [System.step, Option.ite_none_right_eq_some] at hstep
      obtain ⟨server, hserver, rfl⟩ := Option.map_eq_some_iff.mp hstep.2
      exact h.frame (Function.update_eq_self i a.links).symm
        (Runtime.dirty_step · (Runtime.step_cases hserver)) rfl Or.inl
  | mark i =>
      rw [System.step, Option.ite_none_right_eq_some] at hstep
      obtain ⟨server, hserver, rfl⟩ := Option.map_eq_some_iff.mp hstep.2
      have hdirty : server.storage.isMapDirty = true := by
        cases Runtime.step_cases hserver with
        | mark => rfl
      exact h.frame rfl (fun _ => hdirty) rfl fun _ => Or.inr fun _ => hdirty
  | reply i =>
      simp only [System.step] at hstep
      split at hstep
      · next response hhandler =>
          obtain rfl := Option.some.inj hstep
          exact h.frame rfl id rfl fun _ => Or.inl (Or.inl ⟨response, hhandler⟩)
      · cases hstep
  | receive i =>
      have hstage := ha.stage i
      generalize hlink : a.links i = link at hstage
      cases hstage with
      | responded todo results command response hcommand hsetter hcommit hresponse =>
          simp only [System.step, hlink] at hstep
          cases todo with
          | nil => cases hstep
          | cons first todo =>
              obtain rfl := Option.some.inj hstep
              exact h.receive (by rw [hlink]) (by rw [hlink])
      | _ =>
          simp only [System.step, hlink] at hstep
          cases hstep
  | sync e =>
      rw [System.step, Option.ite_none_right_eq_some] at hstep
      obtain ⟨server, hserver, rfl⟩ := Option.map_eq_some_iff.mp hstep.2
      exact ⟨fun j k hk hset =>
          Runtime.dirty_step (h.answered j k hk hset) (Runtime.step_cases hserver),
        fun j hanswer hset =>
          Runtime.dirty_step (h.answering j hanswer hset) (Runtime.step_cases hserver)⟩

/-! ### Reachable states -/

structure Reached (file : Str) (commands : Fin nclients → List TCommandPair)
    (c : Bytes.State nclients) : Prop where
  frames : ∃ a, Refines c a ∧ Inv file commands a ∧ Flagged commands a
  server : Runtime.Inv c.server

theorem reached_start : Reached file commands (Bytes.start file commands) where
  frames := ⟨_, refines_start, inv_start, flagged_start⟩
  server := by
    have hload : Runtime.step "" (Runtime.start file) .load =
        some (Bytes.start file commands).server := rfl
    exact Runtime.inv_step (Runtime.inv_start file) (fun _ h => by cases h) hload

theorem reached_step (hcommands : ∀ i, ∀ command ∈ commands i, Storable command)
    (hfile : Fits (loadText file ∅)) {e : Bytes.Event nclients} (h : Reached file commands c)
    (hstep : Bytes.step path c e = some c') : Reached file commands c' := by
  have hsendable i command (hcommand : command ∈ commands i) :=
    (hcommands i command hcommand).sendable
  obtain ⟨⟨a, hrefines, ha, hflagged⟩, hserver⟩ := h
  obtain ⟨u, a', hu, ⟨hrefines', ha'⟩, -⟩ :=
    simulates hsendable hfile c a e c' ⟨hrefines, ha⟩ hstep
  have hflagged' : Inv file commands a' ∧ Flagged commands a' :=
    exec_invariant (I := fun a => Inv file commands a ∧ Flagged commands a)
      (fun _ _ _ h hstep => ⟨inv_step hsendable hfile h.1 hstep, flagged_step h.1 h.2 hstep⟩)
      ⟨ha, hflagged⟩ hu
  refine ⟨⟨a', hrefines', ha', hflagged'.2⟩, ?_⟩
  rcases server_step hstep with heq | ⟨r, hr⟩
  · rw [heq]
    exact hserver
  · have hcases := Runtime.step_cases hr
    exact
      { clean := Runtime.clean_step hserver.clean hcases
        fresh := Runtime.fresh_step hserver.fresh hcases
        flagged := Runtime.flagged_step hserver.flagged hcases
        joined := Runtime.joined_step hserver.joined hcases
        history := Runtime.history_step hserver.fresh hserver.history hcases
        storable := hrefines'.server ▸ storable_of_inv hcommands ha'
        stored := Runtime.stored_step hserver hcases }

section Runs

variable (hcommands : ∀ i, ∀ command ∈ commands i, Storable command)
  (hfile : Fits (loadText file ∅))
include hcommands hfile

/-- What every step of the server keeps, every run of the system keeps. -/
theorem keep {P : Runtime.State nclients → Prop}
    (hP : ∀ s r s', Runtime.Inv s → Runtime.Inv s' → P s → Runtime.Step s r s' → P s')
    {events : List (Bytes.Event nclients)} (h : Reached file commands c) (hc : P c.server)
    (hrun : exec (Bytes.step path) c events = some c') :
    Reached file commands c' ∧ P c'.server := by
  refine exec_invariant (I := fun c => Reached file commands c ∧ P c.server) ?_ ⟨h, hc⟩ hrun
  rintro c e c' ⟨h, hc⟩ hstep
  have h' := reached_step hcommands hfile h hstep
  refine ⟨h', ?_⟩
  rcases server_step hstep with heq | ⟨r, hr⟩
  · rw [heq]
    exact hc
  · exact hP c.server r c'.server h.server h'.server hc (Runtime.step_cases hr)

/-- After a run of `UpdateFile` that found the flag the file shows all calls of `Set` that
had got into the map before. -/
theorem shows_of_sync {rest : List (Bytes.Event nclients)} (h : Reached file commands c)
    (hdirty : c.server.storage.isMapDirty = true)
    (hrun : exec (Bytes.step path) c rest = some c')
    (hsync : [.sync .check, .sync .post].Sublist rest) :
    Runtime.Shows c.server.sets.length c'.server := by
  obtain ⟨t₁, t₂, t₃, c₁, c₂, c₃, c₄, h₁, hcheck, h₂, hpost, h₃⟩ := exec_split_pair hrun hsync
  obtain ⟨a, hrefines, ha, -⟩ := h.frames
  have hserving : c.server.phase ≠ .loading := by
    rw [hrefines.server, ha.phase]
    simp
  -- up to the check
  have hready := keep hcommands hfile (P := fun s => s.phase ≠ .loading ∧
      s.storage.isMapDirty = true ∧ c.server.sets.length ≤ s.sets.length)
    (fun s r s' _ _ hs hstep => ⟨Runtime.serving_step hs.1 hstep,
      Runtime.dirty_step hs.2.1 hstep, hs.2.2.trans (Runtime.length_sets_step hstep)⟩)
    h ⟨hserving, hdirty, le_rfl⟩ h₁
  obtain ⟨hreached₁, hserving₁, hdirty₁, hlength₁⟩ := hready
  have hahead := Runtime.ahead_of_check hserving₁ hdirty₁ hlength₁
    (Runtime.step_cases (sync_step hcheck))
  -- up to the end of `UpdateFile`
  obtain ⟨hreached₃, hahead₃⟩ := keep hcommands hfile
    (fun s r s' hs hs' => Runtime.ahead_step hs hs')
    (reached_step hcommands hfile hreached₁ hcheck) hahead h₂
  have hpost' := Runtime.step_cases (sync_step hpost)
  have hreached₄ := reached_step hcommands hfile hreached₃ hpost
  have hshows := Runtime.shows_step hreached₃.server hreached₄.server
    (Runtime.shows_of_post hahead₃ hpost') hpost'
  exact (keep hcommands hfile (fun s r s' hs hs' => Runtime.shows_step hs hs') hreached₄ hshows
    h₃).2

/-- What has taken effect stays. -/
theorem commits_prefix {events : List (Bytes.Event nclients)} (h : Reached file commands c)
    (hrun : exec (Bytes.step path) c events = some c') :
    Reached file commands c' ∧ commits c.log <+: commits c'.log := by
  refine exec_invariant (I := fun x => Reached file commands x ∧ commits c.log <+: commits x.log)
    ?_ ⟨h, List.prefix_rfl⟩ hrun
  rintro x e x' ⟨hx, hprefix⟩ hstep
  refine ⟨reached_step hcommands hfile hx hstep, hprefix.trans ?_⟩
  cases he : committer e with
  | some i =>
      rw [(commit_step he hstep).1]
      exact List.prefix_append _ _
  | none =>
      obtain ⟨a, hrefines, ha, -⟩ := hx.frames
      rw [(quiet_step hrefines ha he hstep).1]

end Runs

/-! ### One life -/

/-- The beginnings of an order have the beginnings of its sets. -/
theorem exists_prefix_setsOf (commands : Fin nclients → List TCommandPair)
    (order : List (Op nclients)) (n : ℕ) :
    ∃ kept, kept <+: order ∧ setsOf commands kept = (setsOf commands order).take n := by
  induction order generalizing n with
  | nil => exact ⟨[], List.prefix_rfl, by simp [setsOf]⟩
  | cons x order ih =>
      cases hx : (commands x.1)[x.2]?.bind pairOf with
      | none =>
          obtain ⟨kept, hkept, hsets⟩ := ih n
          refine ⟨x :: kept, List.cons_prefix_cons.mpr ⟨rfl, hkept⟩, ?_⟩
          rw [setsOf, List.filterMap_cons, hx, ← setsOf, hsets, setsOf, setsOf,
            List.filterMap_cons, hx]
      | some pair =>
          cases n with
          | zero => exact ⟨[], List.nil_prefix, rfl⟩
          | succ n =>
              obtain ⟨kept, hkept, hsets⟩ := ih n
              refine ⟨x :: kept, List.cons_prefix_cons.mpr ⟨rfl, hkept⟩, ?_⟩
              rw [setsOf, List.filterMap_cons, hx, ← setsOf, hsets, setsOf, setsOf,
                List.filterMap_cons, hx, List.take_succ_cons]

theorem length_setsOf_pos {order : List (Op nclients)} {x : Op nclients} (hx : x ∈ order)
    (hset : IsSet commands x) : 0 < (setsOf commands order).length := by
  obtain ⟨pair, hpair⟩ := Option.isSome_iff_exists.mp hset
  exact List.length_pos_of_mem (List.mem_filterMap.mpr ⟨x, hx, hpair⟩)

/-- A beginning that has at least as many sets as another one has all of these. -/
theorem mem_of_length_setsOf_le {order kept early : List (Op nclients)} (hkept : kept <+: order)
    (hearly : early <+: order)
    (hle : (setsOf commands early).length ≤ (setsOf commands kept).length) {x : Op nclients}
    (hx : x ∈ early) (hset : IsSet commands x) : x ∈ kept := by
  rcases List.prefix_or_prefix_of_prefix hearly hkept with h | ⟨more, rfl⟩
  · exact h.subset hx
  · rcases List.mem_append.mp hx with hx | hx
    · exact hx
    · have hpos := length_setsOf_pos hx hset
      rw [setsOf, List.filterMap_append, List.length_append, ← setsOf, ← setsOf] at hle
      omega

/-- `x` is a set that had been answered when a run of `UpdateFile` began that has come to
its end. -/
def Synced (path : String) (file : Str) (commands : Fin nclients → List TCommandPair)
    (events : List (Bytes.Event nclients)) (x : Op nclients) : Prop :=
  IsSet commands x ∧ ∃ before rest c, events = before ++ rest ∧
    exec (Bytes.step path) (Bytes.start file commands) before = some c ∧
    [.sync .check, .sync .post].Sublist rest ∧ x.2 < (c.links x.1).results.length

/-- The file that a life leaves behind. -/
structure Survives (path : String) (file : Str) (commands : Fin nclients → List TCommandPair)
    (events : List (Bytes.Event nclients)) (c : Bytes.State nclients)
    (kept : List (Op nclients)) : Prop where
  beginning : kept <+: commits c.log
  content : loadText c.server.file ∅ = applySets (loadText file ∅) (setsOf commands kept)
  synced : ∀ x, Synced path file commands events x → x ∈ kept

theorem exists_survives (hcommands : ∀ i, ∀ command ∈ commands i, Storable command)
    (hfile : Fits (loadText file ∅)) {events : List (Bytes.Event nclients)}
    (hrun : exec (Bytes.step path) (Bytes.start file commands) events = some c) :
    ∃ kept, Survives path file commands events c kept := by
  have hshows₀ : Runtime.Shows 0 (Bytes.start file commands : Bytes.State nclients).server :=
    ⟨0, by simp [Bytes.start, System.start], le_rfl, le_rfl, rfl, fun _ => rfl⟩
  obtain ⟨hreached, hshows⟩ := keep hcommands hfile
    (fun s r s' hs hs' => Runtime.shows_step hs hs') reached_start hshows₀ hrun
  obtain ⟨a, hrefines, ha, -⟩ := hreached.frames
  have hloaded : c.server.loaded = loadText file ∅ := hrefines.server ▸ ha.loaded
  have hsets : c.server.sets = setsOf commands (commits c.log) := by
    rw [hrefines.server, hrefines.log]
    exact ha.sets
  -- of the beginnings that the file may show, the longest
  let shown n := n ≤ c.server.snapshot ∧
    loadText c.server.file ∅ = applySets (loadText file ∅) (c.server.sets.take n)
  have hshown {lo} (h : Runtime.Shows lo c.server) : ∃ n, lo ≤ n ∧ shown n := by
    obtain ⟨n, hn⟩ := h
    exact ⟨n, hn.least, hn.copied, hloaded ▸ hn.content⟩
  have hdecidable : DecidablePred shown := Classical.decPred shown
  obtain ⟨n₀, -, hn₀⟩ := hshown hshows
  have hn : shown (Nat.findGreatest shown c.server.snapshot) :=
    Nat.findGreatest_spec hn₀.1 hn₀
  obtain ⟨kept, hkept, hkeptSets⟩ := exists_prefix_setsOf commands (commits c.log)
    (Nat.findGreatest shown c.server.snapshot)
  rw [← hsets] at hkeptSets
  refine ⟨kept, hkept, hkeptSets ▸ hn.2, ?_⟩
  rintro ⟨i, k⟩ ⟨hset, before, rest, c₁, rfl, hbefore, hsync, hk⟩
  obtain ⟨m, hm, hrest⟩ := exec_append_eq_some.mp hrun
  obtain rfl := Option.some.inj (hm.symm.trans hbefore)
  obtain ⟨hreached₁, -⟩ := commits_prefix hcommands hfile reached_start hbefore
  obtain ⟨-, hprefix⟩ := commits_prefix hcommands hfile hreached₁ hrest
  obtain ⟨b, hrefines₁, hb, hflagged⟩ := hreached₁.frames
  rw [(hrefines₁.links i).results] at hk
  have hdirty : m.server.storage.isMapDirty = true :=
    hrefines₁.server ▸ hflagged.answered i k hk hset
  have hmem : (i, k) ∈ commits m.log := by
    obtain ⟨hret, -⟩ := (hb.logged i).answered k _ (List.getElem?_eq_getElem hk)
    exact hrefines₁.log ▸ hb.orderly.committed hret
  obtain ⟨n, hlo, hshownn⟩ := hshown (shows_of_sync hcommands hfile hreached₁ hdirty hrest hsync)
  have hgreatest := hlo.trans (Nat.le_findGreatest hshownn.1 hshownn)
  have hsets₁ : m.server.sets = setsOf commands (commits m.log) := by
    rw [hrefines₁.server, hrefines₁.log]
    exact hb.sets
  refine mem_of_length_setsOf_le hkept hprefix ?_ hmem hset
  rw [hkeptSets, List.length_take, ← hsets₁]
  exact le_min hgreatest (hgreatest.trans (hn.1.trans hreached.server.history.snapshot))

/-! ### Any number of lives -/

/-- The clients of a life with their commands, what happened, and the state in which the
process died. -/
structure Life where
  nclients : ℕ
  commands : Fin nclients → List TCommandPair
  events : List (Bytes.Event nclients)
  last : Bytes.State nclients

/-- Each life begins with the file that the one before has left behind. -/
inductive Succession (path : String) : Str → List Life → Prop
  | nil (file : Str) : Succession path file []
  | cons (file life lives)
      (hrun : exec (Bytes.step path) (Bytes.start file life.commands) life.events =
        some life.last)
      (hrest : Succession path life.last.server.file lives) : Succession path file (life :: lives)

/-- The lives are those of one map, which begins as `map` and keeps of every life the
effects of a beginning of its commands. -/
inductive Explained (path : String) : Str → TMap → List Life → Prop
  | nil (file : Str) (map : TMap) : Explained path file map []
  | cons (file : Str) (map : TMap) (life lives kept)
      (horderly : Orderly life.last.log)
      (hresults : ∀ i (k : ℕ) result, (life.last.links i).results[k]? = some result →
        .ret (i, k) ∈ life.last.log ∧ ∃ command, (life.commands i)[k]? = some command ∧
          result = resultOn (applySets map
            (setsOf life.commands (prior (commits life.last.log) (i, k)))) command)
      (hkept : kept <+: commits life.last.log)
      (hsynced : ∀ x, Synced path file life.commands life.events x → x ∈ kept)
      (hrest : Explained path life.last.server.file (applySets map (setsOf life.commands kept))
        lives) :
      Explained path file map (life :: lives)

/-- What the clients see over all lives of the server. -/
theorem durable (path : String) (file : Str) (lives : List Life)
    (hlives : Succession path file lives)
    (hcommands : ∀ life ∈ lives, ∀ i, ∀ command ∈ life.commands i, Storable command)
    (hfile : ∀ key value, (loadText file ∅).lookup key = some value →
      Message.Small ⟨ECMD.READ_RESPONSE, value⟩) :
    Explained path file (loadText file ∅) lives := by
  induction hlives with
  | nil file => exact .nil file _
  | cons file life lives hrun hrest ih =>
      obtain ⟨hlife, hothers⟩ := List.forall_mem_cons.mp hcommands
      have hsendable i command (hcommand : command ∈ life.commands i) :=
        (hlife i command hcommand).sendable
      obtain ⟨kept, hkept⟩ := exists_survives hlife hfile hrun
      obtain ⟨-, a, -, hrefines, ha, -⟩ := refined_run hsendable hfile hrun
      have hfits := fits_setsOf (.of_sendable hsendable) hfile kept
      rw [← hkept.content] at hfits
      refine .cons file _ life lives kept (hrefines.log ▸ ha.orderly)
        (fun i k result hresult => ?_) hkept.beginning hkept.synced ?_
      · rw [(hrefines.links i).results] at hresult
        rw [hrefines.log]
        exact (ha.logged i).answered k result hresult
      · rw [← hkept.content]
        exact ih hothers hfits

/-- A client sets `k`, and after a run of `UpdateFile` the process is killed. -/
def oneSet : Fin 1 → List TCommandPair := fun _ => [⟨ECMD.WRITE_REQUEST, [107, 32, 118]⟩]

def setAndSync : List (Bytes.Event 1) :=
  [.send 0, .sendUp 0 0 11, .readUp 0 8, .readUp 0 3, .insert 0, .mark 0, .reply 0,
    .sendDown 0 0 8, .readDown 0 8, .resume 0, .sync .dequeue, .sync .wake, .sync .check,
    .sync .copy, .sync (.store [⟨[107], [118]⟩]), .sync .post]

def oneGet : Fin 1 → List TCommandPair := fun _ => [⟨ECMD.READ_REQUEST, [107]⟩]

def getAgain : List (Bytes.Event 1) :=
  [.send 0, .sendUp 0 0 9, .readUp 0 8, .readUp 0 1, .get 0, .reply 0, .sendDown 0 0 9,
    .readDown 0 8, .readDown 0 1, .resume 0]

theorem durable_getAgain :
    ∃ c c', exec (Bytes.step "kvfile.txt") (Bytes.start [] oneSet) setAndSync = some c ∧
      exec (Bytes.step "kvfile.txt") (Bytes.start c.server.file oneGet) getAgain = some c' ∧
      (c'.links 0).results = [(.EOK, [118])] ∧
      Explained "kvfile.txt" [] (loadText [] ∅)
        [⟨1, oneSet, setAndSync, c⟩, ⟨1, oneGet, getAgain, c'⟩] := by
  have hset : ∃ c, exec (Bytes.step "kvfile.txt") (Bytes.start [] oneSet) setAndSync = some c ∧
      c.server.file = [107, 32, 118, 10] := ⟨_, rfl, rfl⟩
  have hget : ∃ c', exec (Bytes.step "kvfile.txt") (Bytes.start [107, 32, 118, 10] oneGet)
      getAgain = some c' ∧ (c'.links 0).results = [(.EOK, [118])] := ⟨_, rfl, rfl⟩
  obtain ⟨c, hc, hfile⟩ := hset
  obtain ⟨c', hc', hresults⟩ := hget
  rw [← hfile] at hc'
  refine ⟨c, c', hc, hc', hresults, durable "kvfile.txt" [] _ ?_ ?_ small_loadText_nil⟩
  · exact .cons [] ⟨1, oneSet, setAndSync, c⟩ _ hc
      (.cons _ ⟨1, oneGet, getAgain, c'⟩ _ hc' (.nil _))
  · refine List.forall_mem_cons.mpr ⟨fun _ => ?_, List.forall_mem_singleton.mpr fun _ => ?_⟩
    · exact List.forall_mem_singleton.mpr ⟨Sendable.set (by decide), by decide⟩
    · exact List.forall_mem_singleton.mpr ⟨Sendable.get (by decide), by decide⟩

end GJServer.System.Lives
