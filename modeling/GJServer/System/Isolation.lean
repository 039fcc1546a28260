import GJServer.System.Refinement

/-!
Keys that only one client sets. What the other clients do at the same time does not
show in them: the client gets the answers that it gets from a server of its own, and
whoever else reads such a key sees the commands of that client happen one by one, none
of them undone, and those at least that had been answered when it asked.
-/

namespace GJServer.System

open Library Exec Linearization Net KVStorage Client Server

variable {nclients : ℕ}

/-- A command on its way through both handlers, with nobody else around: the storage
after it, and its results. -/
def serve (storage : TKVStorage) (command : TCommandPair) : TKVStorage × List Result :=
  match request command with
  | some message =>
      let handled := Server.resolveHandler storage message
      (handled.storage,
        handled.written.map fun response => (Client.resolveHandler response).result)
  | none => (storage, [])

def serveAll (storage : TKVStorage) : List TCommandPair → TKVStorage × List Result
  | [] => (storage, [])
  | command :: commands =>
      let (storage, results) := serve storage command
      let (last, more) := serveAll storage commands
      (last, results ++ more)

/-- A server of its own for the client, which has loaded `file`. -/
def alone (file : Str) (commands : List TCommandPair) : TKVStorage × List Result :=
  serveAll ⟨loadText file ∅, false⟩ commands

/-- The client `i` is the only one that sets `key`. -/
def Owns (commands : Fin nclients → List TCommandPair) (i : Fin nclients) (key : Str) : Prop :=
  ∀ j ≠ i, ∀ command ∈ commands j, ∀ value, pairOf command ≠ some (key, value)

/-- Every value in the map has room in a message. -/
def Fits (map : TMap) : Prop :=
  ∀ key value, map.lookup key = some value → Message.Small ⟨ECMD.READ_RESPONSE, value⟩

/-- Every request that is sent has room in a message. A command that is neither a get nor a
set is not sent. -/
def RequestsFit (commands : Fin nclients → List TCommandPair) : Prop :=
  ∀ i, ∀ command ∈ commands i, (request command).isSome → Sendable command

theorem RequestsFit.of_sendable {commands : Fin nclients → List TCommandPair}
    (h : ∀ i, ∀ command ∈ commands i, Sendable command) : RequestsFit commands :=
  fun i command hcommand _ => h i command hcommand

/-- The result of `command` when the map is `map`. -/
def resultOn (map : TMap) (command : TCommandPair) : Result :=
  if command.cmd = ECMD.READ_REQUEST then (.EOK, (map.lookup command.args).getD [])
  else (.EOK, [])

theorem conclude_resultOn (map : TMap) (command command' : TCommandPair) :
    (conclude command (resultOn map command')).returned = .ok true := by
  rw [resultOn]
  split <;> rfl

variable {file : Str} {commands : Fin nclients → List TCommandPair} {i : Fin nclients}

/-! ### One client alone -/

theorem Fits.insert {map : TMap} (h : Fits map) {args : Str}
    (hsmall : Message.Small ⟨ECMD.WRITE_REQUEST, setContent args⟩) :
    Fits (map.insert (splitKeyValue args).1 (splitKeyValue args).2) := by
  intro key value hvalue
  by_cases hkey : key = (splitKeyValue args).1
  · rw [hkey, Finmap.lookup_insert] at hvalue
    obtain rfl := Option.some.inj hvalue
    have hlen : (setContent args).length ≤ 4088 := hsmall
    rw [setContent, List.length_append] at hlen
    show (splitKeyValue args).2.length ≤ 4088
    omega
  · rw [Finmap.lookup_insert_of_ne _ hkey] at hvalue
    exact h key value hvalue

/-- Whatever the clients set, it stays so. -/
theorem fits_setsOf (hcommands : RequestsFit commands) {map : TMap} (hmap : Fits map)
    (order : List (Op nclients)) :
    Fits (applySets map (setsOf commands order)) := by
  induction order using List.reverseRecOn with
  | nil => exact hmap
  | append_singleton order x ih =>
      rw [setsOf_concat]
      cases hx : (commands x.1)[x.2]?.bind pairOf with
      | none => rwa [Option.toList_none, List.append_nil]
      | some pair =>
          obtain ⟨command, hcommand, hpair⟩ := Option.bind_eq_some_iff.mp hx
          have hsent := isSome_request_of_pairOf hpair
          cases hcommands x.1 command (List.mem_of_getElem? hcommand) hsent with
          | get => cases hpair
          | @set args hsmall =>
              obtain rfl := Option.some.inj hpair
              rw [Option.toList_some, applySets_concat]
              exact ih.insert hsmall

theorem serve_spec {storage : TKVStorage} {command : TCommandPair} (hcommand : Sendable command)
    (hfits : Fits storage.map) :
    (serve storage command).1.map = applySets storage.map (pairOf command).toList ∧
      (serve storage command).2 = [resultOn storage.map command] ∧
      Fits (serve storage command).1.map := by
  cases hcommand with
  | @get key hsmall =>
      have hvalue : Message.Small ⟨ECMD.READ_RESPONSE, (storage.get key).getD []⟩ := by
        cases hget : storage.get key with
        | none => exact Nat.zero_le _
        | some value => exact hfits key value hget
      simp only [serve, request_get, resolveHandler_get hsmall, List.map_cons, List.map_nil,
        resolveHandler_readResponse hvalue]
      exact ⟨rfl, rfl, hfits⟩
  | @set args hsmall =>
      simp only [serve, request_set, resolveHandler_set hsmall, List.map_cons, List.map_nil,
        resolveHandler_writeResponse]
      exact ⟨rfl, rfl, hfits.insert hsmall⟩

theorem serveAll_spec {commands : List TCommandPair} {storage : TKVStorage}
    (hcommands : ∀ command ∈ commands, Sendable command) (hfits : Fits storage.map) :
    (serveAll storage commands).1.map = applySets storage.map (commands.filterMap pairOf) ∧
      ∀ k, (serveAll storage commands).2[k]? = commands[k]?.map
        (resultOn (applySets storage.map ((commands.take k).filterMap pairOf))) := by
  induction commands generalizing storage with
  | nil => exact ⟨rfl, fun k => by simp [serveAll]⟩
  | cons command commands ih =>
      obtain ⟨hmap, hresult, hfits'⟩ :=
        serve_spec (hcommands command List.mem_cons_self) hfits
      obtain ⟨hlast, hmore⟩ := ih (fun c hc => hcommands c (List.mem_cons_of_mem _ hc)) hfits'
      have hsets (l : List TCommandPair) :
          applySets storage.map ((command :: l).filterMap pairOf) =
            applySets (serve storage command).1.map (l.filterMap pairOf) := by
        rw [hmap, ← applySets_append, List.filterMap_cons]
        cases pairOf command <;> rfl
      constructor
      · rw [hsets]
        exact hlast
      · intro k
        simp only [serveAll, hresult, List.singleton_append]
        cases k with
        | zero => rfl
        | succ k =>
            rw [List.getElem?_cons_succ, List.getElem?_cons_succ, List.take_succ_cons, hsets]
            exact hmore k

theorem alone_spec {commands : List TCommandPair} (hfile : Fits (loadText file ∅))
    (hcommands : ∀ command ∈ commands, Sendable command) :
    (alone file commands).1.map =
        applySets (loadText file ∅) (commands.filterMap pairOf) ∧
      ∀ k, (alone file commands).2[k]? = commands[k]?.map
        (resultOn (applySets (loadText file ∅) ((commands.take k).filterMap pairOf))) :=
  serveAll_spec hcommands hfile

/-! ### The sets of a key with one writer -/

theorem filterMap_range (l : List TCommandPair) (m : ℕ) :
    (List.range m).filterMap (fun k => l[k]?.bind pairOf) = (l.take m).filterMap pairOf := by
  induction m with
  | zero => rfl
  | succ m ih =>
      rw [List.range_succ, List.filterMap_append, ih, List.take_add_one, List.filterMap_append]
      congr 1
      cases hget : l[m]? with
      | none => simp [hget]
      | some command => simp [hget, List.filterMap_cons]

/-- Only the commands of its writer decide what a key is. -/
theorem lastSet_setsOf {key : Str} (howns : Owns commands i key) (order : List (Op nclients)) :
    lastSet (setsOf commands order) key =
      lastSet ((own i order).filterMap fun k => (commands i)[k]?.bind pairOf) key := by
  induction order using List.reverseRecOn with
  | nil => rfl
  | append_singleton order a ih =>
      obtain ⟨j, k⟩ := a
      rw [setsOf_concat, lastSet_append, ih, own_append]
      by_cases hj : j = i
      · subst hj
        rw [own_self, List.filterMap_append, lastSet_append]
        congr 2
      · rw [own_other hj, List.append_nil]
        refine (congrArg (Option.or · _) (lastSet_eq_none_iff.mpr ?_)).trans Option.none_or
        intro pair hpair hkey
        obtain ⟨command, hcommand, hpairOf⟩ :=
          Option.bind_eq_some_iff.mp (Option.mem_toList.mp hpair)
        exact howns j hj command (List.mem_of_getElem? hcommand) pair.2
          (hpairOf.trans (congrArg some (Prod.ext hkey rfl)))

theorem lookup_of_owns {key : Str} (howns : Owns commands i key) {order : List (Op nclients)}
    {m : ℕ} (hown : own i order = List.range m)
    (hcommands : ∀ command ∈ commands i, Sendable command) (hfile : Fits (loadText file ∅)) :
    (applySets (loadText file ∅) (setsOf commands order)).lookup key =
      (alone file ((commands i).take m)).1.map.lookup key := by
  rw [lookup_applySets, lastSet_setsOf howns, hown, filterMap_range, ← lookup_applySets,
    (alone_spec hfile fun c hc => hcommands c (List.mem_of_mem_take hc)).1]

/-! ### Any number of clients -/

variable {path : String} {a : State nclients} {c : Bytes.State nclients}

/-- The commands of a client that have taken effect are those that have been answered, and
perhaps the one that it waits for. -/
theorem own_commits (ha : Inv file commands a) (i : Fin nclients) :
    ∃ m, own i (commits a.log) = List.range m ∧ (a.links i).results.length ≤ m ∧
      m ≤ (a.links i).results.length + 1 := by
  obtain ⟨m, hm⟩ := ha.orderly.own_eq_range (ha.logged i).program
  refine ⟨m, hm, Nat.not_lt.mp fun hlt => ?_, ?_⟩
  · obtain ⟨hret, -⟩ := (ha.logged i).answered m _ (List.getElem?_eq_getElem hlt)
    have hmem := mem_own.mpr (ha.orderly.committed hret)
    rw [hm, List.mem_range] at hmem
    exact absurd hmem (Nat.lt_irrefl m)
  · cases m with
    | zero => exact Nat.zero_le _
    | succ n =>
        have hmem : n ∈ own i (commits a.log) := hm ▸ List.self_mem_range_succ
        have hcall := ha.orderly.called (mem_own.mp hmem)
        exact Nat.succ_le_succ ((ha.logged i).called n hcall).1

/-- What a command that has been answered has found. -/
theorem result_eq (ha : Inv file commands a) {j : Fin nclients} {k : ℕ} {result : Result}
    (hresult : (a.links j).results[k]? = some result) {command : TCommandPair}
    (hcommand : (commands j)[k]? = some command) :
    (j, k) ∈ commits a.log ∧ result =
      resultOn (applySets (loadText file ∅) (setsOf commands (prior (commits a.log) (j, k))))
        command := by
  obtain ⟨hret, command', hcommand', heq⟩ := (ha.logged j).answered k result hresult
  obtain rfl := Option.some.inj (hcommand.symm.trans hcommand')
  exact ⟨ha.orderly.committed hret, heq⟩

/-- From keys of its own a client gets what a server of its own would give it, and they
hold what they would hold there. -/
theorem isolated (path : String) (file : Str) (commands : Fin nclients → List TCommandPair)
    (hcommands : ∀ i, ∀ command ∈ commands i, Sendable command)
    (hfile : ∀ key value, (loadText file ∅).lookup key = some value →
      Message.Small ⟨ECMD.READ_RESPONSE, value⟩)
    (events : List (Bytes.Event nclients)) (c : Bytes.State nclients)
    (hrun : exec (Bytes.step path) (Bytes.start file commands) events = some c)
    (i : Fin nclients) :
    (∀ (k : ℕ) result, (c.links i).results[k]? = some result →
        (∀ key, (commands i)[k]? = some ⟨ECMD.READ_REQUEST, key⟩ → Owns commands i key) →
        (alone file (commands i)).2[k]? = some result) ∧
      ∃ m, (c.links i).results.length ≤ m ∧ m ≤ (c.links i).results.length + 1 ∧
        ∀ key, Owns commands i key → c.server.storage.map.lookup key =
          (alone file ((commands i).take m)).1.map.lookup key := by
  obtain ⟨-, a, -, hrefines, ha, -⟩ := Bytes.refined_run hcommands hfile hrun
  rw [(hrefines.links i).results, hrefines.server]
  obtain ⟨m, hm, hle, hge⟩ := own_commits ha i
  refine ⟨fun k result hresult howns => ?_, m, hle, hge, fun key howns => ?_⟩
  · obtain ⟨-, command, hcommand, -⟩ := (ha.logged i).answered k result hresult
    obtain ⟨hmem, rfl⟩ := result_eq ha hresult hcommand
    have hprior := own_prior hm (i, k)
    rw [seen_self hm hmem] at hprior
    rw [(alone_spec hfile (hcommands i)).2 k, hcommand, Option.map_some]
    refine congrArg some ?_
    rw [resultOn, resultOn]
    split
    · next hget =>
        have hkey : Owns commands i command.args := howns _ (by rw [hcommand, ← hget])
        rw [lookup_applySets, lookup_applySets, lastSet_setsOf hkey, hprior, filterMap_range]
    · rfl
  · rw [ha.history.map, ha.loaded, ha.sets]
    exact lookup_of_owns howns hm (hcommands i) hfile

theorem owns_setAndGet : Owns setAndGet 0 [107] := by
  intro j hj command hcommand value hpair
  obtain rfl : j = 1 := by omega
  obtain rfl := List.mem_singleton.mp hcommand
  cases hpair

theorem isolated_setAndGet :
    ∃ events c, exec (Bytes.step "kvfile.txt") (Bytes.start [] setAndGet) events = some c ∧
      (∀ i, (c.links i).todo = []) ∧ ∃ m, (c.links 0).results.length ≤ m ∧
        c.server.storage.map.lookup [107] =
          (alone [] ((setAndGet 0).take m)).1.map.lookup [107] := by
  obtain ⟨events, c, hrun, hdone⟩ := Bytes.exists_finished "kvfile.txt" [] setAndGet
    Bytes.sendable_setAndGet Bytes.small_loadText_nil
  obtain ⟨-, m, hm, -, hmap⟩ := isolated "kvfile.txt" [] setAndGet Bytes.sendable_setAndGet
    Bytes.small_loadText_nil events c hrun 0
  exact ⟨events, c, hrun, hdone, m, hm, hmap [107] owns_setAndGet⟩

/-- `seen j k` commands of client `i` show in the keys that it owns when client `j` runs
its command `k`. -/
structure SeesInOrder (file : Str) (commands : Fin nclients → List TCommandPair)
    (c : Bytes.State nclients) (i : Fin nclients) (seen : Fin nclients → ℕ → ℕ) : Prop where
  gets : ∀ j k key result, (c.links j).results[k]? = some result →
    (commands j)[k]? = some ⟨ECMD.READ_REQUEST, key⟩ → Owns commands i key →
    result = (.EOK, ((alone file ((commands i).take (seen j k))).1.get key).getD [])
  monotone : ∀ j k l, k ≤ l → l < (c.links j).results.length → seen j k ≤ seen j l
  fresh : ∀ j k n, k < (c.links j).results.length →
    Before c.log (.ret (i, n)) (.call (j, k)) → n < seen j k
  past : ∀ j k, seen j k ≤ (c.links i).results.length + 1
  self : ∀ k, k < (c.links i).results.length → seen i k = k

/-- One client sets the keys and any number of clients get them. -/
theorem reads_in_order (path : String) (file : Str)
    (commands : Fin nclients → List TCommandPair)
    (hcommands : ∀ i, ∀ command ∈ commands i, Sendable command)
    (hfile : ∀ key value, (loadText file ∅).lookup key = some value →
      Message.Small ⟨ECMD.READ_RESPONSE, value⟩)
    (events : List (Bytes.Event nclients)) (c : Bytes.State nclients)
    (hrun : exec (Bytes.step path) (Bytes.start file commands) events = some c)
    (i : Fin nclients) : ∃ seen, SeesInOrder file commands c i seen := by
  obtain ⟨-, a, -, hrefines, ha, -⟩ := Bytes.refined_run hcommands hfile hrun
  obtain ⟨m, hm, -, hge⟩ := own_commits ha i
  have hresults j : (c.links j).results = (a.links j).results := (hrefines.links j).results
  have hreturned {j k} (hk : k < (c.links j).results.length) : .ret (j, k) ∈ a.log := by
    rw [hresults] at hk
    exact ((ha.logged j).answered k _ (List.getElem?_eq_getElem hk)).1
  have hbefore {x : Op nclients} {j k} (hk : k < (c.links j).results.length)
      (hx : Before a.log (.ret x) (.call (j, k))) : x ∈ prior (commits a.log) (j, k) :=
    mem_prior_of_before ha.orderly.nodup_commits
      (ha.orderly.realTime hx (ha.orderly.committed (hreturned hk)))
  refine ⟨fun j k => seen (commits a.log) i (j, k), fun j k key result hresult hcommand howns =>
    ?_, fun j k l hkl hl => ?_, fun j k n hk hret => ?_, fun j k => ?_, fun k hk => ?_⟩
  · rw [hresults] at hresult
    obtain ⟨-, rfl⟩ := result_eq ha hresult hcommand
    rw [resultOn, if_pos rfl]
    rw [lookup_of_owns howns (own_prior hm (j, k)) (hcommands i) hfile]
    rfl
  · rcases hkl.eq_or_lt with rfl | hlt
    · exact le_rfl
    · have hcall := ha.orderly.called (ha.orderly.committed (hreturned hl))
      exact seen_mono (hbefore hl ((ha.logged j).program k l hlt hcall))
  · exact lt_seen_of_mem hm (hbefore hk (hrefines.log ▸ hret))
  · rw [hresults]
    exact (seen_le hm (j, k)).trans hge
  · exact seen_self hm (ha.orderly.committed (hreturned hk))

theorem reads_in_order_setAndGet :
    ∃ events c, exec (Bytes.step "kvfile.txt") (Bytes.start [] setAndGet) events = some c ∧
      (∀ i, (c.links i).todo = []) ∧ ∃ seen, SeesInOrder [] setAndGet c 0 seen := by
  obtain ⟨events, c, hrun, hdone⟩ := Bytes.exists_finished "kvfile.txt" [] setAndGet
    Bytes.sendable_setAndGet Bytes.small_loadText_nil
  exact ⟨events, c, hrun, hdone, reads_in_order "kvfile.txt" [] setAndGet
    Bytes.sendable_setAndGet Bytes.small_loadText_nil events c hrun 0⟩

end GJServer.System
