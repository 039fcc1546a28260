import GJServer.System.Attempts

/-!
What is left of the sets of a client that loses its connections. `ProcessFile` sends a
command again until it is answered, and a request says neither from whom it is nor which one
it is: what was sent on a connection before it was lost may still reach the map when later
commands have been answered, since the server serves the old connection and the new one
independently. As in `System.Attempts`, a connection is lost while a command waits for its
answer.
-/

namespace GJServer.System.Attempts

open Library Exec Linearization Net KVStorage Server GJServer.Client

variable {nclients : ℕ} {file : Str} {commands : Fin nclients → List TCommandPair}
variable {s : State nclients} {i : Fin nclients} {key value : Str}

/-- Key and value that the request of `x` sets. -/
def pairAt (commands : Fin nclients → List TCommandPair) (x : Attempt nclients) :
    Option (Str × Str) :=
  (commands x.client)[x.command]?.bind pairOf

/-- Of the requests that set the key, `x` is the last one that has been processed, after those
in `pre` and before others that do not set it; the key has its value. -/
structure LastWrite (commands : Fin nclients → List TCommandPair) (s : State nclients)
    (key value : Str) (pre : List (Attempt nclients)) (x : Attempt nclients) : Prop where
  processed : ∃ post, commits s.log = pre ++ x :: post ∧
    ∀ y ∈ post, ∀ v, pairAt commands y ≠ some (key, v)
  writes : pairAt commands x = some (key, value)
  lookup : s.storage.map.lookup key = some value

/-- The client has never got an answer to `x`, since its connection was lost; the command was
answered to a later attempt. -/
structure Abandoned (log : List (Mark (Attempt nclients))) (x : Attempt nclients) : Prop where
  unanswered : .ret x ∉ log
  repeated : ∃ y, y.op = x.op ∧ x.number < y.number ∧ .ret y ∈ log

theorem lookup_of_inv (h : Inv file commands s) (key : Str) :
    s.storage.map.lookup key = (lastSet ((commits s.log).filterMap (pairAt commands)) key).or
      ((loadText file ∅).lookup key) := by
  rw [h.map, mapAfter, lookup_applySets, setsOf, List.filterMap_map]
  rfl

/-- Of the requests processed, one gave the key its value, and none that did so came after
it. -/
theorem exists_last {order : List (Attempt nclients)}
    (h : lastSet (order.filterMap (pairAt commands)) key = some value) :
    ∃ pre x post, order = pre ++ x :: post ∧ pairAt commands x = some (key, value) ∧
      ∀ y ∈ post, ∀ v, pairAt commands y ≠ some (key, v) := by
  obtain ⟨pre, post, hsplit, hlast⟩ := lastSet_eq_some_iff.mp h
  obtain ⟨pre', rest, rfl, -, hrest⟩ := List.filterMap_eq_append_iff.mp hsplit
  obtain ⟨skip, x, post', rfl, -, hpair, hpost⟩ := List.filterMap_eq_cons_iff.mp hrest
  refine ⟨pre' ++ skip, x, post', by simp, hpair, fun y hy v hv => ?_⟩
  exact hlast (key, v) (hpost ▸ List.mem_filterMap.mpr ⟨y, hy, hv⟩) rfl

/-- A key that one of the requests has set has the value of the last one. -/
theorem exists_lastWrite (h : Inv file commands s) {y : Attempt nclients}
    (hy : y ∈ commits s.log) (hwrites : pairAt commands y = some (key, value)) :
    ∃ pre x value, LastWrite commands s key value pre x := by
  obtain ⟨last, hlast⟩ :
      ∃ last, lastSet ((commits s.log).filterMap (pairAt commands)) key = some last := by
    rw [← Option.ne_none_iff_exists']
    intro hnone
    exact lastSet_eq_none_iff.mp hnone _ (List.mem_filterMap.mpr ⟨y, hy, hwrites⟩) rfl
  have hlookup := lookup_of_inv h key
  rw [hlast, Option.some_or] at hlookup
  obtain ⟨pre, x, post, hcommits, hx, hpost⟩ := exists_last hlast
  exact ⟨pre, x, last, ⟨post, hcommits, hpost⟩, hx, hlookup⟩

/-- A request that the client has an answer to was processed before those of its later
commands. -/
theorem not_ret_of_late (h : Inv file commands s) {pre post : List (Attempt nclients)}
    {x y : Attempt nclients} (hcommits : commits s.log = pre ++ x :: post) (hy : y ∈ pre)
    (hclient : x.client = y.client) (hlt : x.command < y.command) : .ret x ∉ s.log := by
  intro hret
  have hnodup := h.orderly.nodup_commits
  have hy' : y ∈ commits s.log := hcommits ▸ List.mem_append_left _ hy
  have hbefore := (h.clients x.client).program x y hret (h.orderly.called hy') rfl
    hclient.symm hlt
  have hprior := mem_prior_of_before hnodup (h.orderly.realTime hbefore hy')
  rw [hcommits, prior_append_of_mem hy] at hprior
  rw [hcommits] at hnodup
  exact (List.nodup_append.mp hnodup).2.2 x ((prefix_of_prior pre y).subset hprior) x
    List.mem_cons_self rfl

theorem Attempt.eq_of_op {x y : Attempt nclients} (hop : x.op = y.op)
    (hnumber : x.number = y.number) : x = y := by
  cases x
  cases y
  simp only [Attempt.op, Prod.mk.injEq] at hop
  simp only at hnumber
  rw [hop.1, hop.2, hnumber]

/-- What is processed after a later command has lost its connection, and its command was
answered to another attempt. -/
theorem abandoned_of_late (h : Inv file commands s) {pre post : List (Attempt nclients)}
    {x y : Attempt nclients} (hcommits : commits s.log = pre ++ x :: post) (hy : y ∈ pre)
    (hclient : x.client = y.client) (hlt : x.command < y.command) : Abandoned s.log x := by
  have hunanswered := not_ret_of_late h hcommits hy hclient hlt
  have hx : .call x ∈ s.log :=
    h.orderly.called (hcommits ▸ List.mem_append_right _ List.mem_cons_self)
  have hy' : .call y ∈ s.log := h.orderly.called (hcommits ▸ List.mem_append_left _ hy)
  have hlocal := h.clients x.client
  have hfinished : x.command < (s.clients x.client).results.length := by
    rw [hlocal.results]
    exact hlt.trans_le (hlocal.called y hy' hclient.symm).1
  obtain ⟨z, -, hop, hret, -⟩ := hlocal.answered _ _ (List.getElem?_eq_getElem hfinished)
  have hle := hlocal.last z x hret hx (congrArg Prod.fst hop) hop
  refine ⟨hunanswered, z, hop, hle.lt_of_ne fun hnumber => hunanswered ?_, hret⟩
  rwa [Attempt.eq_of_op hop.symm hnumber]

/-- The first request of client `i` is delayed on a lost connection until the second command
has been answered. -/
def delayed (i : Fin nclients) : List (Event nclients) :=
  [.send i, .lose i, .send i, .process i, .answer i, .send i, .process i, .answer i, .stale i 0]

/-- `k` is set to `a` and then to `b`. -/
def twoSets : List TCommandPair :=
  [⟨ECMD.WRITE_REQUEST, [107, 32, 97]⟩, ⟨ECMD.WRITE_REQUEST, [107, 32, 98]⟩]

end GJServer.System.Attempts
