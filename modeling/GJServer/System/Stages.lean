import GJServer.System.Run

/-!
Where the commands of the clients are in any state of a run, and what their answers
are. A get takes effect when it reads the map under the lock, and a set when it
writes to it; an answer is what a map would give that runs the commands one after
the other in the order of these moments.
-/

namespace GJServer.System

open Library Exec Linearization Net KVStorage Client Server

variable {nclients : ℕ}

/-- Key and value of the sets among the commands of `order`. -/
def setsOf (commands : Fin nclients → List TCommandPair) (order : List (Op nclients)) :
    List (Str × Str) :=
  order.filterMap fun a => (commands a.1)[a.2]?.bind pairOf

/-- The result of `command` as the operation `a` when the commands run one after
the other in `order`. -/
def answer (file : Str) (commands : Fin nclients → List TCommandPair)
    (order : List (Op nclients)) (a : Op nclients) (command : TCommandPair) : Result :=
  if command.cmd = ECMD.READ_REQUEST then
    (.EOK, ((applySets (loadText file ∅) (setsOf commands (prior order a))).lookup
      command.args).getD [])
  else (.EOK, [])

/-- Where the current command of client `i` is. -/
inductive Stage (file : Str) (commands : Fin nclients → List TCommandPair)
    (s : State nclients) (i : Fin nclients) : Link → Prop
  | ready (todo results) (hsetter : s.server.setters i = .idle)
      (hcall : .call (i, results.length) ∉ s.log) :
      Stage file commands s i ⟨todo, .ready, results, [], .idle, []⟩
  | requested (todo results command message)
      (hcommand : (commands i)[results.length]? = some command)
      (hmessage : request command = some message) (hsetter : s.server.setters i = .idle)
      (hcall : .call (i, results.length) ∈ s.log)
      (hcommit : (i, results.length) ∉ commits s.log) :
      Stage file commands s i ⟨todo, .waiting, results, [message], .idle, []⟩
  | getting (todo results key)
      (hcommand : (commands i)[results.length]? = some ⟨ECMD.READ_REQUEST, key⟩)
      (hsetter : s.server.setters i = .idle) (hcall : .call (i, results.length) ∈ s.log)
      (hcommit : (i, results.length) ∉ commits s.log) :
      Stage file commands s i ⟨todo, .waiting, results, [], .getting key, []⟩
  | inserting (todo results args)
      (hcommand : (commands i)[results.length]? = some ⟨ECMD.WRITE_REQUEST, args⟩)
      (hsetter : s.server.setters i =
        .inserting (splitKeyValue args).1 (splitKeyValue args).2)
      (hcall : .call (i, results.length) ∈ s.log)
      (hcommit : (i, results.length) ∉ commits s.log) :
      Stage file commands s i ⟨todo, .waiting, results, [], .setting, []⟩
  | marking (todo results args)
      (hcommand : (commands i)[results.length]? = some ⟨ECMD.WRITE_REQUEST, args⟩)
      (hsetter : s.server.setters i = .marking)
      (hcommit : (i, results.length) ∈ commits s.log) :
      Stage file commands s i ⟨todo, .waiting, results, [], .setting, []⟩
  | answering (todo results command response)
      (hcommand : (commands i)[results.length]? = some command)
      (hsetter : s.server.setters i = .idle) (hcommit : (i, results.length) ∈ commits s.log)
      (hresponse : (Client.resolveHandler response).result =
        answer file commands (commits s.log) (i, results.length) command) :
      Stage file commands s i ⟨todo, .waiting, results, [], .answering response, []⟩
  | responded (todo results command response)
      (hcommand : (commands i)[results.length]? = some command)
      (hsetter : s.server.setters i = .idle) (hcommit : (i, results.length) ∈ commits s.log)
      (hresponse : (Client.resolveHandler response).result =
        answer file commands (commits s.log) (i, results.length) command) :
      Stage file commands s i ⟨todo, .waiting, results, [], .idle, [response]⟩

/-- What the log says about the commands of one client. -/
structure Logged (file : Str) (commands : Fin nclients → List TCommandPair)
    (s : State nclients) (i : Fin nclients) : Prop where
  todo : (s.links i).todo = (commands i).drop (s.links i).results.length
  called : ∀ k, .call (i, k) ∈ s.log →
    k ≤ (s.links i).results.length ∧ k < (commands i).length
  answered : ∀ k result, (s.links i).results[k]? = some result → .ret (i, k) ∈ s.log ∧
    ∃ command, (commands i)[k]? = some command ∧
      result = answer file commands (commits s.log) (i, k) command
  program : ∀ j k, j < k → .call (i, k) ∈ s.log → Before s.log (.ret (i, j)) (.call (i, k))

structure Inv (file : Str) (commands : Fin nclients → List TCommandPair)
    (s : State nclients) : Prop where
  phase : s.server.phase = .serving
  history : Runtime.History s.server
  loaded : s.server.loaded = loadText file ∅
  sets : s.server.sets = setsOf commands (commits s.log)
  orderly : Orderly s.log
  logged : ∀ i, Logged file commands s i
  stage : ∀ i, Stage file commands s i (s.links i)

variable {path : String} {file : Str} {commands : Fin nclients → List TCommandPair}
variable {s s' : State nclients} {i j : Fin nclients} {link : Link}

theorem inv_start : Inv file commands (start file commands) where
  phase := rfl
  history := ⟨rfl, le_rfl⟩
  loaded := rfl
  sets := rfl
  orderly := .nil
  logged _ := ⟨rfl, nofun, nofun, nofun⟩
  stage _ := .ready _ _ rfl nofun

/-- The marks are not those of a call or an effect of client `j`. -/
def Foreign (j : Fin nclients) (more : List (Mark (Op nclients))) : Prop :=
  ∀ k, .call (j, k) ∉ more ∧ .commit (j, k) ∉ more

theorem foreign_nil : Foreign j [] := fun _ => ⟨List.not_mem_nil, List.not_mem_nil⟩

theorem answer_append {log more : List (Mark (Op nclients))} {a : Op nclients}
    (ha : a ∈ commits log) (command : TCommandPair) :
    answer file commands (commits (log ++ more)) a command =
      answer file commands (commits log) a command := by
  rw [answer, commits_append, prior_append_of_mem ha, answer]

/-- A step of one client leaves the stage of another as it was. -/
theorem Stage.frame (h : Stage file commands s j link)
    (hsetter : s'.server.setters j = s.server.setters j) {more : List (Mark (Op nclients))}
    (hlog : s'.log = s.log ++ more) (hmore : Foreign j more) :
    Stage file commands s' j link := by
  have hcall {k} : .call (j, k) ∈ s'.log ↔ .call (j, k) ∈ s.log := by
    rw [hlog, List.mem_append, or_iff_left (hmore k).1]
  have hcommit {k} : (j, k) ∈ commits s'.log ↔ (j, k) ∈ commits s.log := by
    rw [mem_commits, mem_commits, hlog, List.mem_append, or_iff_left (hmore k).2]
  have hanswer {k command} (hk : (j, k) ∈ commits s.log) :
      answer file commands (commits s'.log) (j, k) command =
        answer file commands (commits s.log) (j, k) command :=
    hlog ▸ answer_append hk command
  cases h with
  | ready todo results hs hc =>
      exact .ready todo results (hsetter.trans hs) (hcall.not.mpr hc)
  | requested todo results command message hcommand hmessage hs hc hn =>
      exact .requested todo results command message hcommand hmessage (hsetter.trans hs)
        (hcall.mpr hc) (hcommit.not.mpr hn)
  | getting todo results key hcommand hs hc hn =>
      exact .getting todo results key hcommand (hsetter.trans hs) (hcall.mpr hc)
        (hcommit.not.mpr hn)
  | inserting todo results args hcommand hs hc hn =>
      exact .inserting todo results args hcommand (hsetter.trans hs) (hcall.mpr hc)
        (hcommit.not.mpr hn)
  | marking todo results args hcommand hs hn =>
      exact .marking todo results args hcommand (hsetter.trans hs) (hcommit.mpr hn)
  | answering todo results command response hcommand hs hn hresponse =>
      exact .answering todo results command response hcommand (hsetter.trans hs)
        (hcommit.mpr hn) (hresponse.trans (hanswer hn).symm)
  | responded todo results command response hcommand hs hn hresponse =>
      exact .responded todo results command response hcommand (hsetter.trans hs)
        (hcommit.mpr hn) (hresponse.trans (hanswer hn).symm)

/-- What the log says about a client stays true while it does not call or get an
answer. -/
theorem Logged.frame (h : Logged file commands s j) (horderly : Orderly s.log)
    (hlink : s'.links j = link) (htodo : link.todo = (s.links j).todo)
    (hresults : link.results = (s.links j).results) {more : List (Mark (Op nclients))}
    (hlog : s'.log = s.log ++ more) (hmore : ∀ k, .call (j, k) ∉ more) :
    Logged file commands s' j := by
  have hcall {k} : .call (j, k) ∈ s'.log ↔ .call (j, k) ∈ s.log := by
    rw [hlog, List.mem_append, or_iff_left (hmore k)]
  refine ⟨?_, fun k hk => ?_, fun k result hk => ?_, fun i k hik hk => ?_⟩
  · rw [hlink, htodo, hresults, h.todo]
  · rw [hlink, hresults]
    exact h.called k (hcall.mp hk)
  · rw [hlink, hresults] at hk
    obtain ⟨hret, command, hcommand, hresult⟩ := h.answered k result hk
    rw [hlog]
    refine ⟨List.mem_append_left _ hret, command, hcommand, hresult.trans ?_⟩
    exact (answer_append (horderly.committed hret) command).symm
  · rw [hlog]
    exact (h.program i k hik (hcall.mp hk)).trans (List.sublist_append_left _ _)

/-- What a step that concerns client `i` does to the server as a whole. -/
structure Local (server server' : Runtime.State nclients) (i : Fin nclients) : Prop where
  phase : server'.phase = server.phase
  loaded : server'.loaded = server.loaded
  history : Runtime.History server → Runtime.History server'
  setters : ∀ j ≠ i, server'.setters j = server.setters j

theorem Local.refl (server : Runtime.State nclients) (i : Fin nclients) :
    Local server server i := ⟨rfl, rfl, id, fun _ _ => rfl⟩

theorem history_of_step {server server' : Runtime.State nclients} {e : Runtime.Event nclients}
    (hphase : server.phase = .serving) (hstep : Runtime.Step server e server') :
    Runtime.History server → Runtime.History server' := by
  have hfresh : Runtime.Fresh server := fun hloading => by cases hphase.symm.trans hloading
  exact fun h => Runtime.history_step hfresh h hstep

theorem local_begin {server server' : Runtime.State nclients} {key value : Str}
    (hphase : server.phase = .serving)
    (hstep : Runtime.step path server (.begin i key value) = some server') :
    Local server server' i ∧ server'.setters i = .inserting key value ∧
      server'.sets = server.sets := by
  have hcases := Runtime.step_cases hstep
  have hhistory := history_of_step hphase hcases
  cases hcases with
  | begin =>
      exact ⟨⟨rfl, rfl, hhistory, fun j hj => Function.update_of_ne hj ..⟩,
        Function.update_self .., rfl⟩

theorem local_insert {server server' : Runtime.State nclients} {key value : Str}
    (hphase : server.phase = .serving) (hsetter : server.setters i = .inserting key value)
    (hstep : Runtime.step path server (.insert i) = some server') :
    Local server server' i ∧ server'.setters i = .marking ∧
      server'.sets = server.sets ++ [(key, value)] := by
  have hcases := Runtime.step_cases hstep
  have hhistory := history_of_step hphase hcases
  cases hcases with
  | insert _ key' value' hi =>
      obtain ⟨rfl, rfl⟩ := Runtime.Setter.inserting.inj (hsetter.symm.trans hi)
      exact ⟨⟨rfl, rfl, hhistory, fun j hj => Function.update_of_ne hj ..⟩,
        Function.update_self .., rfl⟩

theorem local_mark {server server' : Runtime.State nclients}
    (hphase : server.phase = .serving)
    (hstep : Runtime.step path server (.mark i) = some server') :
    Local server server' i ∧ server.setters i = .marking ∧ server'.setters i = .idle ∧
      server'.sets = server.sets := by
  have hcases := Runtime.step_cases hstep
  have hhistory := history_of_step hphase hcases
  cases hcases with
  | mark _ hi =>
      exact ⟨⟨rfl, rfl, hhistory, fun j hj => Function.update_of_ne hj ..⟩, hi,
        Function.update_self .., rfl⟩

/-- The thread of the storage changes nothing that a client can see. -/
theorem local_sync {server server' : Runtime.State nclients} {e : Runtime.Event nclients}
    (hphase : server.phase = .serving) (hsync : isSync e = true)
    (hstep : Runtime.step path server e = some server') :
    server'.phase = server.phase ∧ server'.loaded = server.loaded ∧
      (Runtime.History server → Runtime.History server') ∧
      server'.setters = server.setters ∧ server'.sets = server.sets := by
  have hcases := Runtime.step_cases hstep
  have hhistory := history_of_step hphase hcases
  cases hcases <;> first
    | exact ⟨rfl, rfl, hhistory, rfl, rfl⟩
    | cases hsync

/-- A step of client `i` keeps the invariant if it does so at client `i`. -/
theorem Inv.of_local (h : Inv file commands s) (hlocal : Local s.server s'.server i)
    (hlinks : ∀ j ≠ i, s'.links j = s.links j) {more : List (Mark (Op nclients))}
    (hlog : s'.log = s.log ++ more) (hmore : ∀ j ≠ i, Foreign j more)
    (hsets : s'.server.sets = setsOf commands (commits s'.log)) (horderly : Orderly s'.log)
    (hlogged : Logged file commands s' i) (hlink : s'.links i = link)
    (hstage : Stage file commands s' i link) : Inv file commands s' where
  phase := hlocal.phase.trans h.phase
  history := hlocal.history h.history
  loaded := hlocal.loaded.trans h.loaded
  sets := hsets
  orderly := horderly
  logged j := by
    by_cases hj : j = i
    · exact hj ▸ hlogged
    · exact (h.logged j).frame h.orderly (hlinks j hj) rfl rfl hlog fun k => (hmore j hj k).1
  stage j := by
    by_cases hj : j = i
    · rw [hj, hlink]
      exact hstage
    · rw [hlinks j hj]
      exact (h.stage j).frame (hlocal.setters j hj) hlog (hmore j hj)

/-- A step of client `i` that leaves no mark in the log. -/
theorem Inv.of_unlogged (h : Inv file commands s) (hlocal : Local s.server s'.server i)
    (hlinks : s'.links = Function.update s.links i link)
    (htodo : link.todo = (s.links i).todo) (hresults : link.results = (s.links i).results)
    (hlog : s'.log = s.log) (hsets : s'.server.sets = s.server.sets)
    (hstage : Stage file commands s' i link) : Inv file commands s' := by
  have hlink : s'.links i = link := by rw [hlinks, Function.update_self]
  have hlog' : s'.log = s.log ++ [] := by rw [hlog, List.append_nil]
  have hlogged : Logged file commands s' i :=
    (h.logged i).frame h.orderly hlink htodo hresults hlog' fun _ => List.not_mem_nil
  apply h.of_local hlocal ?_ hlog' (fun _ _ => foreign_nil) ?_ ?_ hlogged hlink hstage
  · intro j hj
    rw [hlinks, Function.update_of_ne hj]
  · rw [hsets, hlog]
    exact h.sets
  · rw [hlog]
    exact h.orderly

theorem foreign_mark {k : ℕ} {mark : Mark (Op nclients)}
    (hmark : mark = .call (i, k) ∨ mark = .commit (i, k) ∨ mark = .ret (i, k)) (j) (hj : j ≠ i) :
    Foreign j [mark] := by
  intro m
  rcases hmark with rfl | rfl | rfl <;> simp [hj]

/-- The command that a waiting client is at has been sent by it. -/
theorem sendable_of_getElem? (hcommands : ∀ i, ∀ command ∈ commands i, Sendable command)
    {k : ℕ} {command : TCommandPair} (h : (commands i)[k]? = some command) : Sendable command :=
  hcommands i command (List.mem_of_getElem? h)

/-- Sending the next command adds its call behind all earlier answers. -/
theorem Logged.send (h : Logged file commands s i) {link' : Link} (hlink : s.links i = link)
    {command : TCommandPair} (hcommand : (commands i)[link.results.length]? = some command)
    (horderly : Orderly s.log) (hlink' : s'.links i = link') (htodo : link'.todo = link.todo)
    (hresults : link'.results = link.results)
    (hlog : s'.log = s.log ++ [.call (i, link.results.length)]) :
    Logged file commands s' i := by
  have hlt : link.results.length < (commands i).length :=
    (List.getElem?_eq_some_iff.mp hcommand).1
  have hcall {k} (hk : .call (i, k) ∈ s'.log) :
      .call (i, k) ∈ s.log ∨ k = link.results.length := by
    rw [hlog, List.mem_append, List.mem_singleton] at hk
    simpa using hk
  have hframe : Before s.log ≤ Before s'.log := fun x y hxy => by
    rw [hlog]
    exact hxy.trans (List.sublist_append_left _ _)
  refine ⟨?_, fun k hk => ?_, fun k result hk => ?_, fun j k hjk hk => ?_⟩
  · rw [hlink', htodo, hresults, ← hlink, h.todo]
  · rw [hlink', hresults]
    rcases hcall hk with hk | rfl
    · rw [← hlink]
      exact h.called k hk
    · exact ⟨le_rfl, hlt⟩
  · rw [hlink', hresults, ← hlink] at hk
    obtain ⟨hret, command, hcommand, hresult⟩ := h.answered k result hk
    rw [hlog]
    exact ⟨List.mem_append_left _ hret, command, hcommand,
      hresult.trans (answer_append (horderly.committed hret) command).symm⟩
  · rcases hcall hk with hk | rfl
    · exact hframe _ _ (h.program j k hjk hk)
    · have hget := List.getElem?_eq_getElem hjk
      rw [hlog, before_concat]
      exact Or.inr ⟨(h.answered j _ (by rw [hlink]; exact hget)).1, rfl⟩

theorem inv_send (hcommands : ∀ i, ∀ command ∈ commands i, Sendable command)
    (h : Inv file commands s) (hstep : step path s (.send i) = some s') :
    Inv file commands s' := by
  have hstage := h.stage i
  have hlogged := h.logged i
  generalize hlink : s.links i = link at hstage
  cases hstage with
  | ready todo results hsetter hcall =>
      simp only [step, hlink, State.op] at hstep
      have htodo := hlogged.todo
      rw [hlink] at htodo
      cases todo with
      | nil => cases hstep
      | cons command rest =>
          have hcommand : (commands i)[results.length]? = some command := by
            rw [← List.head?_drop, ← htodo, List.head?_cons]
          have hlt : results.length < (commands i).length :=
            (List.getElem?_eq_some_iff.mp hcommand).1
          obtain ⟨message, hmessage⟩ : ∃ message, request command = some message := by
            cases sendable_of_getElem? hcommands hcommand <;> exact ⟨_, rfl⟩
          simp only [hmessage, List.nil_append] at hstep
          obtain rfl := Option.some.inj hstep
          refine h.of_local (.refl ..) (fun j hj => Function.update_of_ne hj ..) rfl
            (foreign_mark (Or.inl rfl)) ?_ (.call h.orderly hcall)
            (hlogged.send hlink hcommand h.orderly (Function.update_self ..) rfl rfl rfl)
            (Function.update_self ..) ?_
          · exact h.sets.trans (congrArg _ (commits_call ..).symm)
          · refine .requested _ results command message hcommand hmessage hsetter
              (List.mem_append_right _ (List.mem_singleton_self _)) ?_
            rw [State.record, commits_call]
            exact fun hmem => hcall (h.orderly.called hmem)
  | _ =>
      simp only [step, hlink] at hstep
      cases hstep

theorem inv_handle (hcommands : ∀ i, ∀ command ∈ commands i, Sendable command)
    (h : Inv file commands s) (hstep : step path s (.handle i) = some s') :
    Inv file commands s' := by
  have hstage := h.stage i
  generalize hlink : s.links i = link at hstage
  cases hstage with
  | requested todo results command message hcommand hmessage hsetter hcall hcommit =>
      simp only [step, hlink] at hstep
      cases sendable_of_getElem? hcommands hcommand with
      | @get key hsmall =>
          obtain rfl := Option.some.inj ((request_get key).symm.trans hmessage)
          rw [handle_get hsmall, hlink] at hstep
          obtain rfl := Option.some.inj hstep
          refine h.of_unlogged (.refl ..) rfl (by rw [hlink]) (by rw [hlink]) rfl rfl ?_
          exact .getting todo results key hcommand hsetter hcall hcommit
      | @set args hsmall =>
          obtain rfl := Option.some.inj ((request_set args).symm.trans hmessage)
          rw [handle_set hsmall, hlink] at hstep
          obtain ⟨server, hserver, rfl⟩ := Option.map_eq_some_iff.mp hstep
          obtain ⟨hlocal, hsetter', hsets⟩ := local_begin h.phase hserver
          refine h.of_unlogged hlocal rfl (by rw [hlink]) (by rw [hlink]) rfl hsets ?_
          exact .inserting todo results args hcommand hsetter' hcall hcommit
  | _ =>
      simp only [step, hlink] at hstep
      cases hstep

/-! ### The moment of effect -/

theorem setsOf_concat (order : List (Op nclients)) (a : Op nclients) :
    setsOf commands (order ++ [a]) =
      setsOf commands order ++ ((commands a.1)[a.2]?.bind pairOf).toList := by
  rw [setsOf, List.filterMap_append, setsOf]
  congr 1

/-- Every value in the map has room in a message. -/
theorem small_of_lookup (hcommands : ∀ i, ∀ command ∈ commands i, Sendable command)
    (hfile : ∀ key value, (loadText file ∅).lookup key = some value →
      Message.Small ⟨ECMD.READ_RESPONSE, value⟩) (h : Inv file commands s) {key value : Str}
    (hvalue : s.server.storage.map.lookup key = some value) :
    Message.Small ⟨ECMD.READ_RESPONSE, value⟩ := by
  rw [h.history.map, h.loaded, h.sets, lookup_applySets, Option.or_eq_some_iff] at hvalue
  rcases hvalue with hlast | ⟨-, hloaded⟩
  · obtain ⟨pre, post, hsplit, -⟩ := lastSet_eq_some_iff.mp hlast
    have hmem : (key, value) ∈ setsOf commands (commits s.log) := by
      rw [hsplit]
      simp
    obtain ⟨a, -, ha⟩ := List.mem_filterMap.mp hmem
    obtain ⟨command, hcommand, hpair⟩ := Option.bind_eq_some_iff.mp ha
    cases sendable_of_getElem? hcommands hcommand with
    | get => cases hpair
    | @set args hsmall =>
        have hpair' : splitKeyValue args = (key, value) := Option.some.inj hpair
        have hlen : (setContent args).length ≤ 4088 := hsmall
        simp only [setContent, hpair', List.length_append, List.length_singleton] at hlen
        show value.length ≤ 4088
        omega
  · exact hfile key value hloaded

/-- What a get is answered where it takes effect. -/
theorem answer_get (h : Inv file commands s) {a : Op nclients} {key : Str}
    (ha : a ∉ commits s.log) :
    answer file commands (commits s.log ++ [a]) a ⟨ECMD.READ_REQUEST, key⟩ =
      (.EOK, (s.server.storage.get key).getD []) := by
  rw [answer, prior_concat_self ha, TKVStorage.get, h.history.map, h.loaded, h.sets]
  rfl

theorem inv_get (hcommands : ∀ i, ∀ command ∈ commands i, Sendable command)
    (hfile : ∀ key value, (loadText file ∅).lookup key = some value →
      Message.Small ⟨ECMD.READ_RESPONSE, value⟩)
    (h : Inv file commands s) (hstep : step path s (.get i) = some s') :
    Inv file commands s' := by
  have hstage := h.stage i
  generalize hlink : s.links i = link at hstage
  cases hstage with
  | getting todo results key hcommand hsetter hcall hcommit =>
      simp only [step, hlink, State.op, Option.some.injEq] at hstep
      subst hstep
      refine h.of_local (.refl ..) (fun j hj => Function.update_of_ne hj ..) rfl
        (foreign_mark (Or.inr (Or.inl rfl))) ?_ (.commit h.orderly hcall hcommit)
        ((h.logged i).frame h.orderly (Function.update_self ..) (by rw [hlink])
          (by rw [hlink]) rfl (by simp)) (Function.update_self ..) ?_
      · rw [State.record, commits_commit, setsOf_concat, hcommand]
        exact h.sets.trans (List.append_nil _).symm
      · -- the answer is the value read here, where the get takes its place in the order
        refine .answering todo results _ _ hcommand hsetter ?_ ?_
        · rw [State.record, commits_commit]
          exact List.mem_append_right _ (List.mem_singleton_self _)
        · have hsmall : Message.Small
              ⟨ECMD.READ_RESPONSE, (s.server.storage.get key).getD []⟩ := by
            cases hvalue : s.server.storage.get key with
            | none => exact Nat.zero_le _
            | some value => exact small_of_lookup hcommands hfile h hvalue
          rw [State.record, commits_commit, resolveHandler_readResponse hsmall]
          exact (answer_get h hcommit).symm
  | _ =>
      simp only [step, hlink] at hstep
      cases hstep

theorem inv_insert (h : Inv file commands s) (hstep : step path s (.insert i) = some s') :
    Inv file commands s' := by
  have hstage := h.stage i
  generalize hlink : s.links i = link at hstage
  cases hstage with
  | inserting todo results args hcommand hsetter hcall hcommit =>
      simp only [step, hlink, State.op, if_true] at hstep
      obtain ⟨server, hserver, rfl⟩ := Option.map_eq_some_iff.mp hstep
      obtain ⟨hlocal, hsetter', hsets⟩ := local_insert h.phase hsetter hserver
      refine h.of_local hlocal (fun _ _ => rfl) rfl (foreign_mark (Or.inr (Or.inl rfl))) ?_
        (.commit h.orderly hcall hcommit)
        ((h.logged i).frame h.orderly rfl rfl rfl rfl (by simp)) hlink ?_
      · dsimp only
        rw [State.record, commits_commit, setsOf_concat, hcommand, hsets, h.sets]
        rfl
      · refine .marking todo results args hcommand hsetter' ?_
        dsimp only
        rw [State.record, commits_commit]
        exact List.mem_append_right _ (List.mem_singleton_self _)
  | marking todo results args hcommand hsetter hcommit =>
      simp only [step, hlink, if_true] at hstep
      obtain ⟨server, hserver, -⟩ := Option.map_eq_some_iff.mp hstep
      cases Runtime.step_cases hserver with
      | insert _ key value hi => cases hsetter.symm.trans hi
  | _ =>
      simp only [step, hlink] at hstep
      cases hstep

theorem inv_mark (h : Inv file commands s) (hstep : step path s (.mark i) = some s') :
    Inv file commands s' := by
  have hstage := h.stage i
  generalize hlink : s.links i = link at hstage
  cases hstage with
  | marking todo results args hcommand hsetter hcommit =>
      simp only [step, hlink, if_true] at hstep
      obtain ⟨server, hserver, rfl⟩ := Option.map_eq_some_iff.mp hstep
      obtain ⟨hlocal, -, hsetter', hsets⟩ := local_mark h.phase hserver
      refine h.of_unlogged hlocal rfl (by rw [hlink]) (by rw [hlink]) rfl hsets ?_
      exact .answering todo results _ _ hcommand hsetter' hcommit resolveHandler_writeResponse
  | inserting todo results args hcommand hsetter hcall hcommit =>
      simp only [step, hlink, if_true] at hstep
      obtain ⟨server, hserver, -⟩ := Option.map_eq_some_iff.mp hstep
      cases hsetter.symm.trans (local_mark h.phase hserver).2.1
  | _ =>
      simp only [step, hlink] at hstep
      cases hstep

theorem inv_reply (h : Inv file commands s) (hstep : step path s (.reply i) = some s') :
    Inv file commands s' := by
  have hstage := h.stage i
  generalize hlink : s.links i = link at hstage
  cases hstage with
  | answering todo results command response hcommand hsetter hcommit hresponse =>
      simp only [step, hlink, Option.some.injEq] at hstep
      subst hstep
      refine h.of_unlogged (.refl ..) rfl (by rw [hlink]) (by rw [hlink]) rfl rfl ?_
      exact .responded todo results command response hcommand hsetter hcommit hresponse
  | _ =>
      simp only [step, hlink] at hstep
      cases hstep

theorem conclude_answer (order : List (Op nclients)) (a : Op nclients)
    (command : TCommandPair) :
    (conclude command (answer file commands order a command)).returned = .ok true := by
  unfold answer
  split <;> rfl

/-- An answer adds a result, and the mark of the return with it. -/
theorem Logged.receive (h : Logged file commands s i) {link' : Link}
    (hlink : s.links i = link) {command : TCommandPair}
    (hcommand : (commands i)[link.results.length]? = some command) {result : Result}
    (hresult : result = answer file commands (commits s.log) (i, link.results.length) command)
    (hlink' : s'.links i = link') (htodo : link'.todo = link.todo.tail)
    (hresults : link'.results = link.results ++ [result])
    (hlog : s'.log = s.log ++ [.ret (i, link.results.length)]) :
    Logged file commands s' i := by
  have hcall {k} : .call (i, k) ∈ s'.log ↔ .call (i, k) ∈ s.log := by
    rw [hlog, List.mem_append, or_iff_left (by simp)]
  have hcommits : commits s'.log = commits s.log := by rw [hlog, commits_ret]
  refine ⟨?_, fun k hk => ?_, fun k r hk => ?_, fun j k hjk hk => ?_⟩
  · rw [hlink', htodo, hresults, ← hlink, h.todo, List.tail_drop, List.length_append,
      List.length_singleton]
  · obtain ⟨hle, hlt⟩ := h.called k (hcall.mp hk)
    rw [hlink', hresults, List.length_append, ← hlink]
    exact ⟨hle.trans (Nat.le_add_right ..), hlt⟩
  · rw [hlink', hresults, List.getElem?_append] at hk
    rw [hcommits, hlog]
    split at hk
    · obtain ⟨hret, command, hcommand, hr⟩ := h.answered k r (by rw [hlink]; exact hk)
      exact ⟨List.mem_append_left _ hret, command, hcommand, hr⟩
    · next hge =>
        obtain ⟨hlt, rfl⟩ := List.getElem?_eq_some_iff.mp hk
        obtain rfl : k = link.results.length := by
          rw [List.length_singleton] at hlt
          omega
        refine ⟨List.mem_append_right _ (List.mem_singleton_self _), command, hcommand, ?_⟩
        rw [List.getElem_singleton, hresult]
  · rw [hlog]
    exact (h.program j k hjk (hcall.mp hk)).trans (List.sublist_append_left _ _)

theorem inv_receive (h : Inv file commands s) (hstep : step path s (.receive i) = some s') :
    Inv file commands s' := by
  have hstage := h.stage i
  have hlogged := h.logged i
  generalize hlink : s.links i = link at hstage
  cases hstage with
  | responded todo results command response hcommand hsetter hcommit hresponse =>
      simp only [step, hlink] at hstep
      cases todo with
      | nil => cases hstep
      | cons first todo =>
          have htodo := hlogged.todo
          rw [hlink] at htodo
          have hfirst : (commands i)[results.length]? = some first := by
            rw [← List.head?_drop, ← htodo, List.head?_cons]
          obtain rfl := Option.some.inj (hcommand.symm.trans hfirst)
          simp only [receive, hresponse, conclude_answer, hlink, State.op,
            Option.some.injEq] at hstep
          subst hstep
          refine h.of_local (.refl ..) (fun j hj => Function.update_of_ne hj ..) rfl
            (foreign_mark (Or.inr (Or.inr rfl))) ?_ (.ret h.orderly hcommit)
            (hlogged.receive hlink hcommand rfl (Function.update_self ..) rfl rfl rfl)
            (Function.update_self ..) (.ready _ _ hsetter ?_)
          · exact h.sets.trans (congrArg _ (commits_ret ..).symm)
          · intro hcall
            have hold : .call (i, results.length + 1) ∈ s.log := by
              simpa [State.record, State.setLink] using hcall
            have hle := (hlogged.called _ hold).1
            rw [hlink] at hle
            exact absurd hle (Nat.not_succ_le_self _)
  | _ =>
      simp only [step, hlink] at hstep
      cases hstep

theorem inv_sync {e : Runtime.Event nclients} (h : Inv file commands s)
    (hstep : step path s (.sync e) = some s') : Inv file commands s' := by
  rw [step, Option.ite_none_right_eq_some] at hstep
  obtain ⟨hsync, hstep⟩ := hstep
  obtain ⟨server, hserver, rfl⟩ := Option.map_eq_some_iff.mp hstep
  obtain ⟨hphase, hloaded, hhistory, hsetters, hsets⟩ := local_sync h.phase hsync hserver
  exact
    { phase := hphase.trans h.phase
      history := hhistory h.history
      loaded := hloaded.trans h.loaded
      sets := hsets.trans h.sets
      orderly := h.orderly
      logged := fun i => (h.logged i).frame h.orderly rfl rfl rfl (List.append_nil _).symm
        fun _ => List.not_mem_nil
      stage := fun i => (h.stage i).frame (congrFun hsetters i) (List.append_nil _).symm
        foreign_nil }

theorem inv_step (hcommands : ∀ i, ∀ command ∈ commands i, Sendable command)
    (hfile : ∀ key value, (loadText file ∅).lookup key = some value →
      Message.Small ⟨ECMD.READ_RESPONSE, value⟩) {e : Event nclients}
    (h : Inv file commands s) (hstep : step path s e = some s') : Inv file commands s' := by
  cases e with
  | send i => exact inv_send hcommands h hstep
  | handle i => exact inv_handle hcommands h hstep
  | get i => exact inv_get hcommands hfile h hstep
  | insert i => exact inv_insert h hstep
  | mark i => exact inv_mark h hstep
  | reply i => exact inv_reply h hstep
  | receive i => exact inv_receive h hstep
  | sync e => exact inv_sync h hstep

end GJServer.System
