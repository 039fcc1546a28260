import GJServer.Library.Exec
import GJServer.System.Isolation

/-!
Any number of clients that lose their connections. As long as a command waits for its
answer the loss of the connection makes `ProcessCommand` return `false`, and `ProcessFile`
sends the command again on the next connection: a command is one attempt after the other,
and what an abandoned attempt has sent may still reach the map at any later time. The
attempts are operations of one linearizable map, and the command has the answer of the
last one.

Every connection carries whole frames, and a session handles a request in one step. Two
cases are left out: a loss between two commands, where `ProcessDisconnect` gives a promise a
value that no answer stands for (the last one a second value, or the next one before its
response has come), and a loss that a write shows while the read of the response has
completed and its handler has not run.
-/

namespace GJServer.System.Attempts

open Library Exec Linearization Net KVStorage Client Server

/-- The client is about to send its command, the request is on the connection, or the server
has processed it and the response is on the connection. -/
inductive Stage
  | ready
  | requested (message : Str)
  | answered (response : Str)
  deriving DecidableEq

/-- The attempts of a client are numbered through, over all its commands. -/
structure Attempt (nclients : ℕ) where
  client : Fin nclients
  number : ℕ
  command : ℕ
  deriving DecidableEq

variable {nclients : ℕ}

def Attempt.op (x : Attempt nclients) : Op nclients := (x.client, x.command)

/-- `attempts` counts those that are over, and `abandoned` are requests on lost connections
that may still be processed. -/
structure Client (nclients : ℕ) where
  todo : List TCommandPair
  stage : Stage
  attempts : ℕ
  finished : ℕ
  abandoned : List (Attempt nclients × Str)
  results : List Result

structure State (nclients : ℕ) where
  storage : TKVStorage
  clients : Fin nclients → Client nclients
  log : List (Mark (Attempt nclients))

inductive Event (nclients : ℕ)
  | send (i : Fin nclients)
  | process (i : Fin nclients)
  | answer (i : Fin nclients)
  | lose (i : Fin nclients)
  | stale (i : Fin nclients) (n : ℕ)
  | drop (i : Fin nclients) (n : ℕ)

def start (file : Str) (commands : Fin nclients → List TCommandPair) : State nclients where
  storage := ⟨loadText file ∅, false⟩
  clients := fun i => ⟨commands i, .ready, 0, 0, [], []⟩
  log := []

def Client.current (c : Client nclients) (i : Fin nclients) : Attempt nclients :=
  ⟨i, c.attempts, c.finished⟩

namespace State

def setClient (s : State nclients) (i : Fin nclients) (c : Client nclients) : State nclients :=
  { s with clients := Function.update s.clients i c }

def record (s : State nclients) (mark : Mark (Attempt nclients)) : State nclients :=
  { s with log := s.log ++ [mark] }

end State

def step (s : State nclients) : Event nclients → Option (State nclients)
  | .send i =>
      let c := s.clients i
      match c.stage, c.todo with
      | .ready, command :: _ =>
          (request command).map fun message =>
            (s.setClient i { c with stage := .requested message }).record (.call (c.current i))
      | _, _ => none
  | .process i =>
      let c := s.clients i
      match c.stage with
      | .requested message =>
          let resolved := Server.resolveHandler s.storage message
          match resolved.written with
          | [response] =>
              some { (s.setClient i { c with stage := .answered response }).record
                (.commit (c.current i)) with storage := resolved.storage }
          | _ => none
      | _ => none
  | .answer i =>
      let c := s.clients i
      match c.stage, c.todo with
      | .answered response, command :: todo =>
          let result := (Client.resolveHandler response).result
          match (conclude command result).returned with
          | .ok true =>
              some ((s.setClient i { c with
                todo := todo, stage := .ready, attempts := c.attempts + 1
                finished := c.finished + 1, results := c.results ++ [result] }).record
                  (.ret (c.current i)))
          | _ => none
      | _, _ => none
  | .lose i =>
      let c := s.clients i
      match c.stage with
      | .ready => none
      | .requested message =>
          some (s.setClient i { c with
            stage := .ready, attempts := c.attempts + 1
            abandoned := c.abandoned ++ [(c.current i, message)] })
      | .answered _ => some (s.setClient i { c with stage := .ready, attempts := c.attempts + 1 })
  | .stale i n =>
      let c := s.clients i
      match c.abandoned[n]? with
      | some (x, message) =>
          some { (s.setClient i { c with abandoned := c.abandoned.eraseIdx n }).record
            (.commit x) with storage := (Server.resolveHandler s.storage message).storage }
      | none => none
  | .drop i n =>
      let c := s.clients i
      if n < c.abandoned.length then
        some (s.setClient i { c with abandoned := c.abandoned.eraseIdx n })
      else none

/-- The map after the attempts of the order, one after the other. -/
def mapAfter (file : Str) (commands : Fin nclients → List TCommandPair)
    (order : List (Attempt nclients)) : TMap :=
  applySets (loadText file ∅) (setsOf commands (order.map Attempt.op))

/-- `message` is the request of the command that `x` tries to get done. -/
def IsRequest (commands : Fin nclients → List TCommandPair) (x : Attempt nclients)
    (message : Str) : Prop :=
  ∃ command, (commands x.client)[x.command]? = some command ∧ request command = some message

/-- What the log says about one client. -/
structure Local (file : Str) (commands : Fin nclients → List TCommandPair)
    (log : List (Mark (Attempt nclients))) (i : Fin nclients) (c : Client nclients) : Prop where
  todo : c.todo = (commands i).drop c.finished
  results : c.results.length = c.finished
  called : ∀ x, .call x ∈ log → x.client = i →
    x.command ≤ c.finished ∧ x.command < (commands i).length ∧
      (x.number < c.attempts ∨ x = c.current i ∧ c.stage ≠ .ready)
  requested : ∀ message, c.stage = .requested message →
    .call (c.current i) ∈ log ∧ c.current i ∉ commits log ∧
      IsRequest commands (c.current i) message
  answering : ∀ response, c.stage = .answered response →
    c.current i ∈ commits log ∧ ∃ command, (commands i)[c.finished]? = some command ∧
      (Fits (loadText file ∅) → (Client.resolveHandler response).result =
        resultOn (mapAfter file commands (prior (commits log) (c.current i))) command)
  abandoned : ∀ p ∈ c.abandoned, .call p.1 ∈ log ∧ p.1 ∉ commits log ∧ p.1.client = i ∧
    p.1.number < c.attempts ∧ IsRequest commands p.1 p.2
  distinct : (c.abandoned.map Prod.fst).Nodup
  answered : ∀ k result, c.results[k]? = some result → ∃ x command, x.op = (i, k) ∧
    .ret x ∈ log ∧ (commands i)[k]? = some command ∧ (Fits (loadText file ∅) →
      result = resultOn (mapAfter file commands (prior (commits log) x)) command)
  returned : ∀ x, .ret x ∈ log → x.client = i → x.command < c.finished
  last : ∀ x y, .ret x ∈ log → .call y ∈ log → x.client = i → x.op = y.op → y.number ≤ x.number
  program : ∀ x y, .ret x ∈ log → .call y ∈ log → x.client = i → y.client = i →
    x.command < y.command → Before log (.ret x) (.call y)

structure Inv (file : Str) (commands : Fin nclients → List TCommandPair)
    (s : State nclients) : Prop where
  orderly : Orderly s.log
  map : s.storage.map = mapAfter file commands (commits s.log)
  clients : ∀ i, Local file commands s.log i (s.clients i)

variable {file : Str} {commands : Fin nclients → List TCommandPair}
variable {s s' : State nclients} {log more : List (Mark (Attempt nclients))}
variable {i j : Fin nclients} {c c' : Client nclients}

theorem inv_start : Inv file commands (start file commands) where
  orderly := .nil
  map := rfl
  clients i :=
    { todo := rfl
      results := rfl
      called := fun _ h => (List.not_mem_nil h).elim
      requested := fun _ h => by cases h
      answering := fun _ h => by cases h
      abandoned := fun _ h => (List.not_mem_nil h).elim
      distinct := List.nodup_nil
      answered := fun _ _ h => by cases h
      returned := fun _ h => (List.not_mem_nil h).elim
      last := fun _ _ h => (List.not_mem_nil h).elim
      program := fun _ _ h => (List.not_mem_nil h).elim }

/-- The command to do next is the first one that is not finished. -/
theorem Local.getElem?_of_todo (h : Local file commands log i c) {command : TCommandPair}
    {rest : List TCommandPair} (htodo : c.todo = command :: rest) :
    (commands i)[c.finished]? = some command := by
  rw [← List.head?_drop, ← h.todo, htodo, List.head?_cons]

theorem Local.todo_of_getElem? (h : Local file commands log i c) {command : TCommandPair}
    (hcommand : (commands i)[c.finished]? = some command) :
    ∃ rest, c.todo = command :: rest := by
  have hhead : c.todo.head? = some command := by
    rw [h.todo, List.head?_drop, hcommand]
  exact ⟨_, List.eq_cons_of_mem_head? hhead⟩

/-- No mark of client `i`. -/
def Foreign (i : Fin nclients) (more : List (Mark (Attempt nclients))) : Prop :=
  ∀ x, x.client = i → .call x ∉ more ∧ .commit x ∉ more ∧ .ret x ∉ more

/-- Nothing changes for a client while others go on. -/
theorem Local.frame (h : Local file commands log i c) (horderly : Orderly log)
    (hmore : Foreign i more) : Local file commands (log ++ more) i c := by
  have hcall {x} (hx : x.client = i) : .call x ∈ log ++ more ↔ .call x ∈ log := by
    rw [List.mem_append, or_iff_left (hmore x hx).1]
  have hcommit {x} (hx : x.client = i) : x ∈ commits (log ++ more) ↔ x ∈ commits log := by
    rw [mem_commits, mem_commits, List.mem_append, or_iff_left (hmore x hx).2.1]
  have hret {x} (hx : x.client = i) : .ret x ∈ log ++ more ↔ .ret x ∈ log := by
    rw [List.mem_append, or_iff_left (hmore x hx).2.2]
  have hprior {x} (hx : x ∈ commits log) :
      prior (commits (log ++ more)) x = prior (commits log) x := by
    rw [commits_append, prior_append_of_mem hx]
  have hcurrent : (c.current i).client = i := rfl
  refine
    { todo := h.todo
      results := h.results
      called := fun x hx hi => h.called x ((hcall hi).mp hx) hi
      requested := fun message hm => ?_
      answering := fun response hr => ?_
      abandoned := fun p hp => ?_
      distinct := h.distinct
      answered := fun k result hk => ?_
      returned := fun x hx hi => h.returned x ((hret hi).mp hx) hi
      last := fun x y hx hy hi hop => ?_
      program := fun x y hx hy hi hj hlt => ?_ }
  · rw [hcall hcurrent, hcommit hcurrent]
    exact h.requested message hm
  · obtain ⟨hmem, hresult⟩ := h.answering response hr
    rw [hcommit hcurrent, hprior hmem]
    exact ⟨hmem, hresult⟩
  · obtain ⟨hc, hn, hi, hrest⟩ := h.abandoned p hp
    exact ⟨(hcall hi).mpr hc, (hcommit hi).not.mpr hn, hi, hrest⟩
  · obtain ⟨x, command, hop, hx, hresult⟩ := h.answered k result hk
    refine ⟨x, command, hop, List.mem_append_left _ hx, ?_⟩
    rw [hprior (horderly.committed hx)]
    exact hresult
  · have hj : y.client = i := (congrArg Prod.fst hop).symm.trans hi
    exact h.last x y ((hret hi).mp hx) ((hcall hj).mp hy) hi hop
  · exact (h.program x y ((hret hi).mp hx) ((hcall hj).mp hy) hi hj hlt).trans
      (List.sublist_append_left _ _)

theorem foreign_of_ne {mark : Mark (Attempt nclients)} {x : Attempt nclients}
    (hmark : mark = .call x ∨ mark = .commit x ∨ mark = .ret x) (hj : j ≠ x.client) :
    Foreign j [mark] := by
  intro y hy
  have hne : y ≠ x := fun h => hj (hy ▸ h ▸ rfl)
  rcases hmark with rfl | rfl | rfl <;> simp [hne]

/-- A step of client `i` keeps the invariant if it does so at client `i`. -/
theorem Inv.of_local (h : Inv file commands s) (hlog : s'.log = s.log ++ more)
    (hmore : ∀ j ≠ i, Foreign j more) (horderly : Orderly s'.log)
    (hmap : s'.storage.map = mapAfter file commands (commits s'.log))
    (hclients : s'.clients = Function.update s.clients i c)
    (hlocal : Local file commands s'.log i c) : Inv file commands s' where
  orderly := horderly
  map := hmap
  clients j := by
    rw [hclients]
    by_cases hj : j = i
    · subst hj
      rw [Function.update_self]
      exact hlocal
    · rw [Function.update_of_ne hj, hlog]
      exact (h.clients j).frame h.orderly (hmore j hj)

/-! ### One client -/

/-- A client between two attempts sends the request of its command. -/
theorem Local.send (h : Local file commands log i c) (horderly : Orderly log)
    (hready : c.stage = .ready) {command : TCommandPair} {message : Str}
    (hcommand : (commands i)[c.finished]? = some command)
    (hmessage : request command = some message) :
    .call (c.current i) ∉ log ∧ Local file commands (log ++ [.call (c.current i)]) i
      { c with stage := .requested message } := by
  have hnew : .call (c.current i) ∉ log := fun hmem => by
    rcases (h.called _ hmem rfl).2.2 with hlt | ⟨-, hne⟩
    · exact Nat.lt_irrefl _ hlt
    · exact hne hready
  have hcommits : commits (log ++ [.call (c.current i)]) = commits log := commits_call _ _
  have hret {x} : .ret x ∈ log ++ [.call (c.current i)] ↔ .ret x ∈ log := by simp
  refine ⟨hnew,
    { todo := h.todo
      results := h.results
      called := fun x hx hi => ?_
      requested := fun m hm => ?_
      answering := fun response hr => by cases hr
      abandoned := fun p hp => ?_
      distinct := h.distinct
      answered := fun k result hk => ?_
      returned := fun x hx hi => h.returned x (hret.mp hx) hi
      last := fun x y hx hy hi hop => ?_
      program := fun x y hx hy hi hj hlt => ?_ }⟩
  · rcases List.mem_append.mp hx with hx | hx
    · obtain ⟨hle, hlength, hcurrent⟩ := h.called x hx hi
      refine ⟨hle, hlength, hcurrent.imp_right fun ⟨heq, _⟩ => ⟨heq, by simp⟩⟩
    · obtain rfl := Mark.call.inj (List.mem_singleton.mp hx)
      exact ⟨le_rfl, (List.getElem?_eq_some_iff.mp hcommand).1, Or.inr ⟨rfl, by simp⟩⟩
  · obtain rfl := Stage.requested.inj hm
    refine ⟨List.mem_append_right _ (List.mem_singleton_self _), ?_, command, hcommand, hmessage⟩
    rw [hcommits]
    exact fun hmem => hnew (horderly.called hmem)
  · rw [hcommits]
    obtain ⟨hc, hrest⟩ := h.abandoned p hp
    exact ⟨List.mem_append_left _ hc, hrest⟩
  · rw [hcommits]
    obtain ⟨x, command, hop, hx, hresult⟩ := h.answered k result hk
    exact ⟨x, command, hop, hret.mpr hx, hresult⟩
  · rcases List.mem_append.mp hy with hy | hy
    · exact h.last x y (hret.mp hx) hy hi hop
    · obtain rfl := Mark.call.inj (List.mem_singleton.mp hy)
      exact absurd (congrArg Prod.snd hop) (h.returned x (hret.mp hx) hi).ne
  · rcases List.mem_append.mp hy with hy | hy
    · exact (h.program x y (hret.mp hx) hy hi hj hlt).trans (List.sublist_append_left _ _)
    · rw [List.mem_singleton] at hy
      exact before_concat.mpr (Or.inr ⟨hret.mp hx, hy⟩)

/-- One of the client's requests takes effect. -/
theorem Local.commit (h : Local file commands log i c) (horderly : Orderly log)
    {x : Attempt nclients} {c' : Client nclients}
    (htodo : c'.todo = c.todo) (hresults : c'.results = c.results)
    (hfinished : c'.finished = c.finished) (hattempts : c'.attempts = c.attempts)
    (hstage : c.stage ≠ .ready → c'.stage ≠ .ready)
    (hrequested : ∀ message, c'.stage = .requested message →
      c.stage = .requested message ∧ x ≠ c.current i)
    (hanswering : ∀ response, c'.stage = .answered response → c.stage = .answered response ∨
      x = c.current i ∧ x ∉ commits log ∧ ∃ command, (commands i)[c.finished]? = some command ∧
        (Fits (loadText file ∅) → (Client.resolveHandler response).result =
          resultOn (mapAfter file commands (commits log)) command))
    (habandoned : ∀ p ∈ c'.abandoned, p ∈ c.abandoned ∧ p.1 ≠ x)
    (hdistinct : (c'.abandoned.map Prod.fst).Nodup) :
    Local file commands (log ++ [.commit x]) i c' := by
  have hcommits : commits (log ++ [.commit x]) = commits log ++ [x] := commits_commit _ _
  have hcurrent : c'.current i = c.current i := by
    rw [Client.current, Client.current, hattempts, hfinished]
  have hcall {y} : .call y ∈ log ++ [.commit x] ↔ .call y ∈ log := by simp
  have hret {y} : .ret y ∈ log ++ [.commit x] ↔ .ret y ∈ log := by simp
  have hprior {y} (hy : y ∈ commits log) :
      prior (commits log ++ [x]) y = prior (commits log) y := prior_append_of_mem hy [x]
  refine
    { todo := by rw [htodo, hfinished, h.todo]
      results := by rw [hresults, hfinished, h.results]
      called := fun y hy hi => ?_
      requested := fun message hm => ?_
      answering := fun response hr => ?_
      abandoned := fun p hp => ?_
      distinct := hdistinct
      answered := fun k result hk => ?_
      returned := fun y hy hi => hfinished ▸ h.returned y (hret.mp hy) hi
      last := fun y z hy hz hi hop => h.last y z (hret.mp hy) (hcall.mp hz) hi hop
      program := fun y z hy hz hi hj hlt =>
        (h.program y z (hret.mp hy) (hcall.mp hz) hi hj hlt).trans (List.sublist_append_left _ _) }
  · obtain ⟨hle, hlength, hwhich⟩ := h.called y (hcall.mp hy) hi
    rw [hcurrent, hfinished, hattempts]
    exact ⟨hle, hlength, hwhich.imp_right fun ⟨heq, hne⟩ => ⟨heq, hstage hne⟩⟩
  · obtain ⟨hold, hne⟩ := hrequested message hm
    obtain ⟨hc, hn, hrequest⟩ := h.requested message hold
    rw [hcurrent, hcall, hcommits, List.mem_append, List.mem_singleton, not_or]
    exact ⟨hc, ⟨hn, hne.symm⟩, hrequest⟩
  · rw [hcurrent, hcommits, hfinished]
    rcases hanswering response hr with hold | ⟨rfl, hnew, hresult⟩
    · obtain ⟨hmem, hresult⟩ := h.answering response hold
      rw [hprior hmem]
      exact ⟨List.mem_append_left _ hmem, hresult⟩
    · rw [prior_concat_self hnew]
      exact ⟨List.mem_append_right _ (List.mem_singleton_self _), hresult⟩
  · obtain ⟨hold, hne⟩ := habandoned p hp
    obtain ⟨hc, hn, hi, hlt, hrequest⟩ := h.abandoned p hold
    rw [hcall, hcommits, List.mem_append, List.mem_singleton, not_or, hattempts]
    exact ⟨hc, ⟨hn, hne⟩, hi, hlt, hrequest⟩
  · obtain ⟨y, command, hop, hy, hcommand, hresult⟩ := h.answered k result (hresults ▸ hk)
    refine ⟨y, command, hop, hret.mpr hy, hcommand, ?_⟩
    rw [hcommits, hprior (horderly.committed hy)]
    exact hresult

/-- The client gets the answer to its command. -/
theorem Local.answer (h : Local file commands log i c)
    {response : Str} (hstage : c.stage = .answered response) :
    Local file commands (log ++ [.ret (c.current i)]) i { c with
      todo := c.todo.tail, stage := .ready, attempts := c.attempts + 1
      finished := c.finished + 1
      results := c.results ++ [(Client.resolveHandler response).result] } := by
  obtain ⟨hcommitted, command, hcommand, hresult⟩ := h.answering response hstage
  have hcommits : commits (log ++ [.ret (c.current i)]) = commits log := commits_ret _ _
  have hcall {x} : .call x ∈ log ++ [.ret (c.current i)] ↔ .call x ∈ log := by simp
  have hret {x} (hx : .ret x ∈ log ++ [.ret (c.current i)]) : .ret x ∈ log ∨ x = c.current i := by
    rcases List.mem_append.mp hx with hx | hx
    · exact Or.inl hx
    · exact Or.inr (Mark.ret.inj (List.mem_singleton.mp hx))
  refine
    { todo := by rw [h.todo, List.tail_drop]
      results := by rw [List.length_append, List.length_singleton, h.results]
      called := fun x hx hi => ?_
      requested := fun m hm => by cases hm
      answering := fun response hr => by cases hr
      abandoned := fun p hp => ?_
      distinct := h.distinct
      answered := fun k result hk => ?_
      returned := fun x hx hi => ?_
      last := fun x y hx hy hi hop => ?_
      program := fun x y hx hy hi hj hlt => ?_ }
  · obtain ⟨hle, hlength, hwhich⟩ := h.called x (hcall.mp hx) hi
    refine ⟨hle.trans (Nat.le_succ _), hlength, Or.inl (Nat.lt_succ_of_le ?_)⟩
    rcases hwhich with hlt | ⟨rfl, -⟩
    · exact hlt.le
    · exact le_rfl
  · obtain ⟨hc, hn, hi, hlt, hrequest⟩ := h.abandoned p hp
    rw [hcall, hcommits]
    exact ⟨hc, hn, hi, hlt.trans (Nat.lt_succ_self _), hrequest⟩
  · rw [hcommits]
    rw [List.getElem?_append] at hk
    split at hk
    · obtain ⟨x, command, hop, hx, hresult⟩ := h.answered k result hk
      exact ⟨x, command, hop, List.mem_append_left _ hx, hresult⟩
    · next hge =>
        obtain ⟨hlt, rfl⟩ := List.getElem?_eq_some_iff.mp hk
        obtain rfl : k = c.finished := by
          rw [List.length_singleton, h.results] at hlt
          rw [h.results] at hge
          omega
        refine ⟨c.current i, command, rfl, List.mem_append_right _ (List.mem_singleton_self _),
          hcommand, fun hfile => ?_⟩
        rw [List.getElem_singleton, hresult hfile]
  · rcases hret hx with hx | rfl
    · exact (h.returned x hx hi).trans (Nat.lt_succ_self _)
    · exact Nat.lt_succ_self _
  · have hj : y.client = i := (congrArg Prod.fst hop).symm.trans hi
    rcases hret hx with hx | rfl
    · exact h.last x y hx (hcall.mp hy) hi hop
    · rcases (h.called y (hcall.mp hy) hj).2.2 with hlt | ⟨rfl, -⟩
      · exact hlt.le
      · exact le_rfl
  · rcases hret hx with hx | rfl
    · exact (h.program x y hx (hcall.mp hy) hi hj hlt).trans (List.sublist_append_left _ _)
    · exact absurd hlt (not_lt.mpr (h.called y (hcall.mp hy) hj).1)

/-- The client loses its connection; `more` is what may still be processed of the attempt. -/
theorem Local.lose (h : Local file commands log i c) {more : List (Attempt nclients × Str)}
    (hmore : more = [] ∨ ∃ message, c.stage = .requested message ∧
      more = [(c.current i, message)]) :
    Local file commands log i { c with
      stage := .ready, attempts := c.attempts + 1, abandoned := c.abandoned ++ more } := by
  have hover {p} (hp : p ∈ more) : p.1 = c.current i ∧ .call p.1 ∈ log ∧ p.1 ∉ commits log ∧
      IsRequest commands p.1 p.2 := by
    rcases hmore with rfl | ⟨message, hstage, rfl⟩
    · cases hp
    · obtain rfl := List.mem_singleton.mp hp
      exact ⟨rfl, h.requested message hstage⟩
  refine
    { todo := h.todo
      results := h.results
      called := fun x hx hi => ?_
      requested := fun m hm => by cases hm
      answering := fun response hr => by cases hr
      abandoned := fun p hp => ?_
      distinct := ?_
      answered := h.answered
      returned := h.returned
      last := h.last
      program := h.program }
  · obtain ⟨hle, hlength, hwhich⟩ := h.called x hx hi
    refine ⟨hle, hlength, Or.inl (Nat.lt_succ_of_le ?_)⟩
    rcases hwhich with hlt | ⟨rfl, -⟩
    · exact hlt.le
    · exact le_rfl
  · rcases List.mem_append.mp hp with hp | hp
    · obtain ⟨hc, hn, hi, hlt, hrequest⟩ := h.abandoned p hp
      exact ⟨hc, hn, hi, hlt.trans (Nat.lt_succ_self _), hrequest⟩
    · obtain ⟨heq, hc, hn, hrequest⟩ := hover hp
      refine ⟨hc, hn, ?_, ?_, hrequest⟩
      · rw [heq, Client.current]
      · rw [heq]
        exact Nat.lt_succ_self _
  · rw [List.map_append, List.nodup_append]
    refine ⟨h.distinct, ?_, fun x hx y hy heq => ?_⟩
    · rcases hmore with rfl | ⟨message, -, rfl⟩
      · exact List.nodup_nil
      · exact List.nodup_singleton _
    · obtain ⟨p, hp, rfl⟩ := List.mem_map.mp hx
      obtain ⟨q, hq, rfl⟩ := List.mem_map.mp hy
      have hlt := (h.abandoned p hp).2.2.2.1
      rw [heq, (hover hq).1] at hlt
      exact absurd hlt (Nat.lt_irrefl _)

/-- An abandoned request that will not be processed. -/
theorem Local.drop (h : Local file commands log i c) (n : ℕ) :
    Local file commands log i { c with abandoned := c.abandoned.eraseIdx n } where
  todo := h.todo
  results := h.results
  called := h.called
  requested := h.requested
  answering := h.answering
  abandoned p hp := h.abandoned p (List.mem_of_mem_eraseIdx hp)
  distinct := h.distinct.sublist ((List.eraseIdx_sublist _ _).map _)
  answered := h.answered
  returned := h.returned
  last := h.last
  program := h.program

/-! ### The map -/

theorem mapAfter_concat (order : List (Attempt nclients)) {x : Attempt nclients}
    {command : TCommandPair} (hcommand : (commands x.client)[x.command]? = some command) :
    mapAfter file commands (order ++ [x]) =
      applySets (mapAfter file commands order) (pairOf command).toList := by
  have hop : (commands x.op.1)[x.op.2]? = some command := hcommand
  rw [mapAfter, List.map_append, List.map_singleton, setsOf_concat, hop, Option.bind_some,
    applySets_append, mapAfter]

section Effect

variable (hcommands : RequestsFit commands)
include hcommands

/-- What the handler does with the request of an attempt. -/
theorem effect_spec (h : Inv file commands s) {x : Attempt nclients} {message : Str}
    (hrequest : IsRequest commands x message) :
    (Server.resolveHandler s.storage message).storage.map =
        mapAfter file commands (commits s.log ++ [x]) ∧
      ∃ command, (commands x.client)[x.command]? = some command ∧
        (Fits (loadText file ∅) → (Server.resolveHandler s.storage message).written.map
            (fun response => (Client.resolveHandler response).result) =
          [resultOn (mapAfter file commands (commits s.log)) command]) := by
  obtain ⟨command, hcommand, hmessage⟩ := hrequest
  have hsendable := hcommands x.client command (List.mem_of_getElem? hcommand)
    (hmessage ▸ Option.isSome_some)
  refine ⟨?_, command, hcommand, fun hfile => ?_⟩
  · rw [map_resolveHandler hsendable hmessage, h.map, mapAfter_concat _ hcommand]
  · have hfits : Fits s.storage.map := by
      rw [h.map]
      exact fits_setsOf hcommands hfile _
    obtain ⟨-, hresult, -⟩ := serve_spec hsendable hfits
    rwa [serve, hmessage, h.map] at hresult

theorem inv_process (h : Inv file commands s) (hstep : step s (.process i) = some s') :
    Inv file commands s' := by
  simp only [step] at hstep
  split at hstep
  · next message hstage =>
      split at hstep
      · next response hwritten =>
          obtain rfl := Option.some.inj hstep
          have hlocal := h.clients i
          obtain ⟨hcalled, hnew, hrequest⟩ := hlocal.requested message hstage
          obtain ⟨hmap, command, hcommand, hresult⟩ := effect_spec hcommands h hrequest
          refine h.of_local rfl (fun j hj => foreign_of_ne (Or.inr (Or.inl rfl)) hj)
            (.commit h.orderly hcalled hnew) ?_ rfl ?_
          · show _ = mapAfter file commands (commits (s.log ++ [_]))
            rw [commits_commit]
            exact hmap
          · refine hlocal.commit h.orderly rfl rfl rfl rfl (fun _ => by simp)
              (fun m hm => by cases hm) (fun r hr => ?_) (fun p hp => ⟨hp, ?_⟩) hlocal.distinct
            · obtain rfl := Stage.answered.inj hr
              refine Or.inr ⟨rfl, hnew, command, hcommand, fun hfile => ?_⟩
              have hanswer := hresult hfile
              rwa [hwritten, List.map_singleton, List.singleton_inj] at hanswer
            · intro heq
              have hlt := (hlocal.abandoned p hp).2.2.2.1
              rw [heq] at hlt
              exact absurd hlt (Nat.lt_irrefl _)
      · cases hstep
  · cases hstep

theorem inv_stale {n : ℕ} (h : Inv file commands s) (hstep : step s (.stale i n) = some s') :
    Inv file commands s' := by
  simp only [step] at hstep
  split at hstep
  · next x message hn =>
      obtain rfl := Option.some.inj hstep
      have hlocal := h.clients i
      obtain ⟨hcalled, hnew, hi, hlt, hrequest⟩ := hlocal.abandoned _ (List.mem_of_getElem? hn)
      obtain ⟨hmap, -⟩ := effect_spec hcommands h hrequest
      have hne : x ≠ (s.clients i).current i := by
        rintro rfl
        exact absurd hlt (Nat.lt_irrefl _)
      refine h.of_local rfl (fun j hj => foreign_of_ne (Or.inr (Or.inl rfl)) (hi.symm ▸ hj))
        (.commit h.orderly hcalled hnew) ?_ rfl ?_
      · show _ = mapAfter file commands (commits (s.log ++ [_]))
        rw [commits_commit]
        exact hmap
      · refine hlocal.commit h.orderly rfl rfl rfl rfl id (fun m hm => ⟨hm, hne⟩)
          (fun _ => Or.inl) (fun p hp => ?_)
          (hlocal.distinct.sublist ((List.eraseIdx_sublist _ _).map _))
        obtain ⟨m, hm, hp⟩ := List.mem_eraseIdx_iff_getElem?.mp hp
        refine ⟨List.mem_of_getElem? hp, fun heq => hm ?_⟩
        -- an attempt is abandoned once
        have hlength := (List.getElem?_eq_some_iff.mp hp).1
        refine (List.getElem?_inj ?_ hlocal.distinct).mp ?_
        · rwa [List.length_map]
        · rw [List.getElem?_map, List.getElem?_map, hp, hn]
          exact congrArg some heq
  · cases hstep

end Effect

/-! ### Every step -/

theorem inv_send (h : Inv file commands s) (hstep : step s (.send i) = some s') :
    Inv file commands s' := by
  simp only [step] at hstep
  split at hstep
  · next command rest hstage htodo =>
      obtain ⟨message, hmessage, rfl⟩ := Option.map_eq_some_iff.mp hstep
      have hlocal := h.clients i
      have hcommand := hlocal.getElem?_of_todo htodo
      obtain ⟨hnew, hlocal'⟩ := hlocal.send h.orderly hstage hcommand hmessage
      refine h.of_local rfl (fun j hj => foreign_of_ne (Or.inl rfl) hj) (.call h.orderly hnew)
        ?_ rfl hlocal'
      show _ = mapAfter file commands (commits (s.log ++ [_]))
      rw [commits_call]
      exact h.map
  · cases hstep

theorem inv_answer (h : Inv file commands s) (hstep : step s (.answer i) = some s') :
    Inv file commands s' := by
  simp only [step] at hstep
  split at hstep
  · next response command rest hstage htodo =>
      split at hstep
      · obtain rfl := Option.some.inj hstep
        have hlocal := h.clients i
        have hlocal' := hlocal.answer hstage
        rw [htodo, List.tail_cons] at hlocal'
        refine h.of_local rfl (fun j hj => foreign_of_ne (Or.inr (Or.inr rfl)) hj)
          (.ret h.orderly (hlocal.answering response hstage).1) ?_ rfl hlocal'
        show _ = mapAfter file commands (commits (s.log ++ [_]))
        rw [commits_ret]
        exact h.map
      · cases hstep
  · cases hstep

/-- A step of client `i` that the map does not take part in. -/
theorem Inv.of_silent (h : Inv file commands s)
    (hlocal : Local file commands s.log i c) : Inv file commands (s.setClient i c) :=
  h.of_local (List.append_nil _).symm (fun _ _ _ _ => by simp) h.orderly h.map rfl hlocal

theorem inv_lose (h : Inv file commands s) (hstep : step s (.lose i) = some s') :
    Inv file commands s' := by
  simp only [step] at hstep
  split at hstep
  · cases hstep
  · next message hstage =>
      obtain rfl := Option.some.inj hstep
      exact h.of_silent ((h.clients i).lose (Or.inr ⟨message, hstage, rfl⟩))
  · obtain rfl := Option.some.inj hstep
    have hlocal := (h.clients i).lose (Or.inl rfl)
    rw [List.append_nil] at hlocal
    exact h.of_silent hlocal

theorem inv_step (hcommands : RequestsFit commands) {e : Event nclients}
    (h : Inv file commands s) (hstep : step s e = some s') : Inv file commands s' := by
  cases e with
  | send i => exact inv_send h hstep
  | process i => exact inv_process hcommands h hstep
  | answer i => exact inv_answer h hstep
  | lose i => exact inv_lose h hstep
  | stale i n => exact inv_stale hcommands h hstep
  | drop i n =>
      simp only [step, Option.ite_none_right_eq_some] at hstep
      obtain rfl := Option.some.inj hstep.2
      exact h.of_silent ((h.clients i).drop n)

/-- A client that has nothing left to do has an answer to every command. -/
theorem length_results (h : Inv file commands s) (htodo : (s.clients i).todo = []) :
    (s.clients i).results.length = (commands i).length := by
  have hlocal := h.clients i
  have hge := List.drop_eq_nil_iff.mp (hlocal.todo.symm.trans htodo)
  rw [← hlocal.results] at hge
  apply le_antisymm _ hge
  by_contra hgt
  rw [not_le] at hgt
  obtain ⟨x, command, -, -, hcommand, -⟩ :=
    hlocal.answered _ _ (List.getElem?_eq_getElem hgt)
  exact absurd (List.getElem?_eq_some_iff.mp hcommand).1 (Nat.lt_irrefl _)

/-! ### The attempts are operations of one map -/

/-- Whatever the clients got is the answer of the last attempt at the command, and the
attempts happen one by one between their call and their return, if they happen at all. -/
structure Explained (file : Str) (commands : Fin nclients → List TCommandPair)
    (s : State nclients) : Prop where
  orderly : Orderly s.log
  map : s.storage.map = mapAfter file commands (commits s.log)
  answered : ∀ i k result, (s.clients i).results[k]? = some result → ∃ x command,
    x.op = (i, k) ∧ .ret x ∈ s.log ∧ (∀ y, .call y ∈ s.log → x.op = y.op → y.number ≤ x.number) ∧
      (commands i)[k]? = some command ∧
      result = resultOn (mapAfter file commands (prior (commits s.log) x)) command
  called : ∀ x, .call x ∈ s.log → x.command < (commands x.client).length ∧
    x.command ≤ (s.clients x.client).results.length
  program : ∀ x y, .ret x ∈ s.log → .call y ∈ s.log → x.client = y.client →
    x.command < y.command → Before s.log (.ret x) (.call y)
  realTime : ∀ x y, Before s.log (.ret x) (.call y) → y ∈ commits s.log →
    Before (commits s.log) x y

theorem explained_of_inv (hfile : Fits (loadText file ∅)) (h : Inv file commands s) :
    Explained file commands s where
  orderly := h.orderly
  map := h.map
  answered i k result hresult := by
    obtain ⟨x, command, hop, hx, hcommand, heq⟩ := (h.clients i).answered k result hresult
    exact ⟨x, command, hop, hx,
      fun y hy hxy => (h.clients i).last x y hx hy (congrArg Prod.fst hop) hxy, hcommand,
      heq hfile⟩
  called x hx := by
    obtain ⟨hle, hlt, -⟩ := (h.clients x.client).called x hx rfl
    rw [(h.clients x.client).results]
    exact ⟨hlt, hle⟩
  program x y hx hy hclient := (h.clients x.client).program x y hx hy rfl hclient.symm
  realTime _ _ hxy hy := h.orderly.realTime hxy hy

/-- A client sets `k` to `a`, and another one sets it to `b` and then gets it. -/
def twoSetters : Fin 2 → List TCommandPair
  | 0 => [⟨ECMD.WRITE_REQUEST, [107, 32, 97]⟩]
  | 1 => [⟨ECMD.WRITE_REQUEST, [107, 32, 98]⟩, ⟨ECMD.READ_REQUEST, [107]⟩]

end GJServer.System.Attempts
