import GJServer.System.Bytes
import Mathlib.Algebra.BigOperators.Ring.Finset

/-!
The bytes refine the frames: what the clients and the server do byte by byte, they do in
`System.Run` frame by frame, with the same answers, the same storage and the same log of
commands. So the answers are linearizable, `Read` never asserts in vain, and the bytes
run out: every run can be continued until each command has its answer, and no run has
more steps than the commands allow.
-/

namespace GJServer.System.Bytes

open Library Exec Linearization Net KVStorage Client Server

variable {nclients : ℕ} {path : String} {file : Str}
variable {commands : Fin nclients → List TCommandPair}
variable {c c' : State nclients} {a a' : System.State nclients} {i : Fin nclients}

/-- A step of one client on both levels, paid for by the bytes or frames of this client. -/
theorem Refines.advance (h : Refines c a) (hserver : c'.server = a'.server)
    (hlog : c'.log = a'.log) (hc : ∀ j ≠ i, c'.links j = c.links j)
    (ha : ∀ j ≠ i, a'.links j = a.links j)
    (hsetters : ∀ j ≠ i, a'.server.setters j = a.server.setters j)
    {link : Link} {link' : System.Link} (hlink : c'.links i = link) (hlink' : a'.links i = link')
    (hi : Carries link link')
    (hcost : workLeft link link' (a'.server.setters i) <
      workLeft (c.links i) (a.links i) (a.server.setters i)) :
    Refines c' a' ∧ work c' a' + 1 ≤ work c a := by
  have hother : ∀ j ≠ i, workLeft (c'.links j) (a'.links j) (a'.server.setters j) =
      workLeft (c.links j) (a.links j) (a.server.setters j) := by
    intro j hj
    rw [hc j hj, ha j hj, hsetters j hj]
  refine ⟨⟨hserver, hlog, fun j => ?_⟩, Nat.succ_le_of_lt ?_⟩
  · by_cases hj : j = i
    · rw [hj, hlink, hlink']
      exact hi
    · rw [hc j hj, ha j hj]
      exact h.links j
  · rw [← hlink, ← hlink'] at hcost
    apply Finset.sum_lt_sum
    · intro j _
      by_cases hj : j = i
      · exact hj ▸ hcost.le
      · exact (hother j hj).le
    · exact ⟨i, Finset.mem_univ i, hcost⟩

/-- A step below that is a step of the frames. -/
theorem Refines.framed (h : Refines c a) {e : System.Event nclients}
    (hframe : System.step path a e = some a') (hserver : c'.server = a'.server)
    (hlog : c'.log = a'.log) (hc : ∀ j ≠ i, c'.links j = c.links j)
    (ha : ∀ j ≠ i, a'.links j = a.links j)
    (hsetters : ∀ j ≠ i, a'.server.setters j = a.server.setters j)
    {link : Link} {link' : System.Link} (hlink : c'.links i = link) (hlink' : a'.links i = link')
    (hi : Carries link link')
    (hcost : workLeft link link' (a'.server.setters i) <
      workLeft (c.links i) (a.links i) (a.server.setters i)) :
    ∃ u a', exec (System.step path) a u = some a' ∧ Refines c' a' ∧ work c' a' + 1 ≤ work c a :=
  ⟨[e], a', exec_cons_eq_some.mpr ⟨a', hframe, rfl⟩,
    h.advance hserver hlog hc ha hsetters hlink hlink' hi hcost⟩

/-- A step below that only moves bytes. -/
theorem Refines.stutter (h : Refines c a) {link : Link} (hi : Carries link (a.links i))
    (hcost : link.up.work + link.down.work < (c.links i).up.work + (c.links i).down.work) :
    ∃ u a', exec (System.step path) a u = some a' ∧ Refines (c.setLink i link) a' ∧
      work (c.setLink i link) a' + 1 ≤ work c a := by
  refine ⟨[], a, rfl, h.advance h.server h.log (fun j hj => Function.update_of_ne hj ..)
    (fun _ _ => rfl) (fun _ _ => rfl) (Function.update_self ..) rfl hi ?_⟩
  unfold workLeft
  omega

theorem fitsBuffer_request {command : TCommandPair} (h : Sendable command) :
    ∃ message, request command = some message ∧ FitsBuffer message := by
  cases h with
  | @get key hsmall => exact ⟨_, request_get key, hsmall.fitsBuffer⟩
  | @set args hsmall => exact ⟨_, request_set args, hsmall.fitsBuffer⟩

/-- Every frame is written in at most 4096 bytes. -/
theorem Carries.work_write {session : TSession} {p : Pipe} (h : Flow session p [])
    {message : Str} (hmessage : FitsBuffer message) : (p.write message).work ≤ p.work + 8192 := by
  rw [(h.write hmessage).2]
  have hle : message.length ≤ 4096 := hmessage.2
  omega

theorem simulates_send (hcommands : ∀ i, ∀ command ∈ commands i, Sendable command)
    (h : Refines c a) (ha : Inv file commands a) (hstep : step path c (.send i) = some c') :
    ∃ u a', exec (System.step path) a u = some a' ∧ Refines c' a' ∧
      work c' a' + 1 ≤ work c a := by
  have hi := h.links i
  have hstage := ha.stage i
  generalize hlink : a.links i = link at hi hstage
  cases hstage with
  | ready todo results hsetter hcall =>
      cases todo with
      | nil =>
          simp only [step, hi.reader, hi.main, hi.todo] at hstep
          cases hstep
      | cons command rest =>
          have hmem : command ∈ commands i := by
            have htodo := (ha.logged i).todo
            rw [hlink] at htodo
            have hdrop : command ∈ (commands i).drop results.length := htodo ▸ List.mem_cons_self
            exact List.mem_of_mem_drop hdrop
          obtain ⟨message, hmessage, hfits⟩ := fitsBuffer_request (hcommands i command hmem)
          simp only [step, hi.reader, hi.main, hi.todo, hmessage, Option.some.injEq] at hstep
          subst hstep
          obtain ⟨taken, unread, hsplit, -, hdown⟩ := hi.responses
          obtain ⟨rfl, rfl⟩ := List.append_eq_nil_iff.mp hsplit.symm
          have hframe : System.step path a (.send i) = some ((a.setLink i
              ⟨command :: rest, .waiting, results, [message], .idle, []⟩).record
                (.call (a.op i))) := by
            simp only [System.step, hlink, hmessage]
            rfl
          have hop : c.op i = a.op i := by rw [State.op, System.State.op, hi.results, hlink]
          refine h.framed hframe h.server (by rw [← hop]; exact congrArg (· ++ _) h.log)
            (fun j hj => Function.update_of_ne hj ..) (fun j hj => Function.update_of_ne hj ..)
            (fun _ _ => rfl) (Function.update_self ..) (Function.update_self ..) ?_ ?_
          · exact
              { todo := rfl
                main := rfl
                results := hi.results
                handler := hi.handler
                reader := rfl
                requests := (hi.requests.write hfits).1
                responses := ⟨[], [], rfl, rfl, hdown⟩
                answering := hi.answering }
          · have hwork := Carries.work_write hi.requests hfits
            simp only [workLeft, phases, hlink, reduceCtorEq, if_true, if_false, List.tail_cons,
              List.length_cons, List.length_nil]
            omega
  | _ =>
      simp only [step, hi.reader, hi.main] at hstep
      cases hstep

theorem simulates_sendUp (h : Refines c a) {k n : ℕ}
    (hstep : step path c (.sendUp i k n) = some c') :
    ∃ u a', exec (System.step path) a u = some a' ∧ Refines c' a' ∧
      work c' a' + 1 ≤ work c a := by
  obtain ⟨up, hup, rfl⟩ := Option.map_eq_some_iff.mp hstep
  have hi := h.links i
  obtain ⟨hflow, hwork⟩ := hi.requests.writeSome hup
  apply h.stutter
  · exact { hi with requests := hflow }
  · exact Nat.add_lt_add_right hwork _

theorem simulates_sendDown (h : Refines c a) {k n : ℕ}
    (hstep : step path c (.sendDown i k n) = some c') :
    ∃ u a', exec (System.step path) a u = some a' ∧ Refines c' a' ∧
      work c' a' + 1 ≤ work c a := by
  obtain ⟨down, hdown, rfl⟩ := Option.map_eq_some_iff.mp hstep
  have hi := h.links i
  obtain ⟨taken, unread, hsplit, hdelivered, hflow⟩ := hi.responses
  obtain ⟨hflow', hwork⟩ := hflow.writeSome hdown
  apply h.stutter
  · exact { hi with responses := ⟨taken, unread, hsplit, hdelivered, hflow'⟩ }
  · exact Nat.add_lt_add_left hwork _

/-- The handler of the server finds in the buffer what the client has put into the frame. -/
theorem handle_get {link : Link} {key : Str}
    (hsmall : Message.Small ⟨ECMD.READ_REQUEST, key⟩) (hcomplete : link.session.Complete)
    (hpending : link.session.pending = Message.frame ⟨ECMD.READ_REQUEST, key⟩) :
    handle path c i link = some (c.setLink i { link with handler := .getting key }) := by
  rw [handle, hcomplete.header_eq, hcomplete.contentView_eq, hpending,
    Message.ofBytes_frame hsmall.fits, Message.contentView_frame hsmall.fits]
  rfl

theorem handle_set {link : Link} {args : Str}
    (hsmall : Message.Small ⟨ECMD.WRITE_REQUEST, setContent args⟩)
    (hcomplete : link.session.Complete)
    (hpending : link.session.pending = Message.frame ⟨ECMD.WRITE_REQUEST, setContent args⟩) :
    handle path c i link =
      (Runtime.step path c.server (.begin i (splitKeyValue args).1 (splitKeyValue args).2)).map
        fun server => { c.setLink i { link with handler := .setting } with server := server } := by
  have hpair : requestPair link.session.buffer = splitKeyValue args := by
    rw [requestPair, hcomplete.contentView_eq, hpending, ← requestPair, requestPair_set hsmall]
  rw [handle, hcomplete.header_eq, hpending, Message.ofBytes_frame hsmall.fits, hpair]
  rfl

theorem simulates_readUp (hcommands : ∀ i, ∀ command ∈ commands i, Sendable command)
    (h : Refines c a) (ha : Inv file commands a) {n : ℕ}
    (hstep : step path c (.readUp i n) = some c') :
    ∃ u a', exec (System.step path) a u = some a' ∧ Refines c' a' ∧
      work c' a' + 1 ≤ work c a := by
  simp only [step, Option.ite_none_right_eq_some] at hstep
  obtain ⟨hidle, hstep⟩ := hstep
  obtain ⟨⟨up, session⟩, hread, hstep⟩ := Option.bind_eq_some_iff.mp hstep
  have hi := h.links i
  have hflow := hi.requests
  rw [Link.receiving, if_pos hidle] at hflow
  obtain ⟨hwork, ⟨hpart, hflow'⟩ | ⟨hcomplete, rest, hrequests, hflow'⟩⟩ := hflow.read hread
  · rw [if_neg hpart, Option.some.injEq] at hstep
    subst hstep
    apply h.stutter
    · refine { hi with requests := ?_ }
      rw [Link.receiving, if_pos hidle]
      exact hflow'
    · exact Nat.add_lt_add_right hwork _
  · rw [if_pos hcomplete] at hstep
    have hstage := ha.stage i
    generalize hlink : a.links i = link at hi hstage
    rw [hlink] at hrequests
    cases hstage with
    | requested todo results command message hcommand hmessage hsetter hcall hcommit =>
        obtain ⟨rfl, rfl⟩ := List.cons.inj hrequests
        cases sendable_of_getElem? hcommands hcommand with
        | @get key hsmall =>
            have hpending := (Option.some.inj ((request_get key).symm.trans hmessage)).symm
            rw [handle_get hsmall hcomplete hpending, Option.some.injEq] at hstep
            subst hstep
            have hframe : System.step path a (.handle i) = some (a.setLink i
                ⟨todo, .waiting, results, [], .getting key, []⟩) := by
              simp only [System.step, hlink, hpending]
              rw [System.handle_get hsmall, hlink]
            refine h.framed hframe h.server h.log (fun j hj => Function.update_of_ne hj ..)
              (fun j hj => Function.update_of_ne hj ..) (fun _ _ => rfl)
              (Function.update_self ..) (Function.update_self ..) ?_ ?_
            · exact
                { hi with
                  handler := rfl
                  requests := hflow'
                  answering := fun _ hanswering => by cases hanswering }
            · simp only [workLeft, phases, hlink, if_true, List.length_cons, List.length_nil]
              omega
        | @set args hsmall =>
            have hpending := (Option.some.inj ((request_set args).symm.trans hmessage)).symm
            rw [handle_set hsmall hcomplete hpending] at hstep
            obtain ⟨server, hserver, rfl⟩ := Option.map_eq_some_iff.mp hstep
            rw [h.server] at hserver
            obtain ⟨hlocal, hsetter', -⟩ := local_begin ha.phase hserver
            have hframe : System.step path a (.handle i) = some { a.setLink i
                ⟨todo, .waiting, results, [], .setting, []⟩ with server := server } := by
              simp only [System.step, hlink, hpending]
              rw [System.handle_set hsmall, hlink, hserver]
              rfl
            refine h.framed hframe rfl h.log (fun j hj => Function.update_of_ne hj ..)
              (fun j hj => Function.update_of_ne hj ..) hlocal.setters
              (Function.update_self ..) (Function.update_self ..) ?_ ?_
            · exact
                { hi with
                  handler := rfl
                  requests := hflow'
                  answering := fun _ hanswering => by cases hanswering }
            · simp only [workLeft, phases, hlink, hsetter', if_true, List.length_cons,
                List.length_nil, reduceCtorEq, if_false]
              omega
    | _ => cases hrequests

theorem simulates_get (hcommands : ∀ i, ∀ command ∈ commands i, Sendable command)
    (hfile : ∀ key value, (loadText file ∅).lookup key = some value →
      Message.Small ⟨ECMD.READ_RESPONSE, value⟩)
    (h : Refines c a) (ha : Inv file commands a) (hstep : step path c (.get i) = some c') :
    ∃ u a', exec (System.step path) a u = some a' ∧ Refines c' a' ∧
      work c' a' + 1 ≤ work c a := by
  have hi := h.links i
  have hstage := ha.stage i
  generalize hlink : a.links i = link at hi hstage
  cases hstage with
  | getting todo results key hcommand hsetter hcall hcommit =>
      simp only [step, hi.handler, Option.some.injEq] at hstep
      subst hstep
      have hframe : System.step path a (.get i) = some ((a.setLink i ⟨todo, .waiting, results,
          [], .answering (readResponse ((a.server.storage.get key).getD [])), []⟩).record
            (.commit (a.op i))) := by
        simp only [System.step, hlink]
      have hop : c.op i = a.op i := by rw [State.op, System.State.op, hi.results, hlink]
      have hsmall : Message.Small
          ⟨ECMD.READ_RESPONSE, (a.server.storage.get key).getD []⟩ := by
        cases hvalue : a.server.storage.get key with
        | none => exact Nat.zero_le _
        | some value => exact small_of_lookup hcommands hfile ha hvalue
      refine h.framed hframe h.server (by rw [← hop]; exact congrArg (· ++ _) h.log)
        (fun j hj => Function.update_of_ne hj ..) (fun j hj => Function.update_of_ne hj ..)
        (fun _ _ => rfl) (Function.update_self ..) (Function.update_self ..) ?_ ?_
      · have hflow := hi.requests
        rw [Link.receiving, hi.handler, if_neg (by simp)] at hflow
        refine { hi with handler := ?_, requests := hflow, answering := fun response heq => ?_ }
        · rw [h.server]
        · obtain rfl := Handler.answering.inj heq
          rw [h.server]
          exact hsmall.fitsBuffer
      · simp only [workLeft, phases, hlink, if_true, List.length_nil]
        omega
  | _ =>
      simp only [step, hi.handler] at hstep
      cases hstep

theorem simulates_insert (h : Refines c a) (ha : Inv file commands a)
    (hstep : step path c (.insert i) = some c') :
    ∃ u a', exec (System.step path) a u = some a' ∧ Refines c' a' ∧
      work c' a' + 1 ≤ work c a := by
  have hi := h.links i
  simp only [step, Option.ite_none_right_eq_some] at hstep
  obtain ⟨hsetting, hstep⟩ := hstep
  obtain ⟨server, hserver, rfl⟩ := Option.map_eq_some_iff.mp hstep
  rw [h.server] at hserver
  have hsetting' : (a.links i).handler = .setting := hi.handler ▸ hsetting
  have hframe : System.step path a (.insert i) = some
      { a.record (.commit (a.op i)) with server := server } := by
    simp only [System.step, hsetting', if_true, hserver]
    rfl
  have hop : c.op i = a.op i := by rw [State.op, System.State.op, hi.results]
  have hlocal : (∀ j ≠ i, server.setters j = a.server.setters j) ∧
      server.setters i = .marking ∧ a.server.setters i ≠ .marking := by
    cases Runtime.step_cases hserver with
    | insert _ key value hinserting =>
        refine ⟨fun j hj => Function.update_of_ne hj .., Function.update_self .., ?_⟩
        rw [hinserting]
        exact fun h => by cases h
  have hwaiting : (a.links i).main = .waiting := by
    have hstage := ha.stage i
    generalize a.links i = link at hsetting' hstage
    cases hstage <;> first | rfl | cases hsetting'
  refine h.framed hframe rfl (by rw [← hop]; exact congrArg (· ++ _) h.log) (fun _ _ => rfl)
    (fun _ _ => rfl) hlocal.1 (show _ = c.links i from rfl) (show _ = a.links i from rfl) hi ?_
  simp only [workLeft, phases, hsetting', hwaiting, hlocal.2.1, hlocal.2.2, if_true, if_false]
  omega

theorem simulates_mark (h : Refines c a) (ha : Inv file commands a)
    (hstep : step path c (.mark i) = some c') :
    ∃ u a', exec (System.step path) a u = some a' ∧ Refines c' a' ∧
      work c' a' + 1 ≤ work c a := by
  have hi := h.links i
  simp only [step, Option.ite_none_right_eq_some] at hstep
  obtain ⟨hsetting, hstep⟩ := hstep
  obtain ⟨server, hserver, rfl⟩ := Option.map_eq_some_iff.mp hstep
  rw [h.server] at hserver
  have hstage := ha.stage i
  generalize hlink : a.links i = link at hi hstage
  obtain ⟨hlocal, hmarking, -⟩ := local_mark ha.phase hserver
  cases hstage with
  | marking todo results args hcommand hsetter hcommit =>
      have hframe : System.step path a (.mark i) = some { a.setLink i
          ⟨todo, .waiting, results, [], .answering writeResponse, []⟩ with server := server } := by
        simp only [System.step, hlink, if_true, hserver]
        rfl
      refine h.framed hframe rfl h.log (fun j hj => Function.update_of_ne hj ..)
        (fun j hj => Function.update_of_ne hj ..) hlocal.setters
        (Function.update_self ..) (Function.update_self ..) ?_ ?_
      · have hflow := hi.requests
        rw [Link.receiving, hsetting, if_neg (by simp)] at hflow
        refine { hi with handler := rfl, requests := hflow, answering := fun response heq => ?_ }
        obtain rfl := Handler.answering.inj heq
        have hsmall : Message.Small ⟨ECMD.WRITE_RESPONSE, []⟩ := Nat.zero_le _
        exact hsmall.fitsBuffer
      · simp only [workLeft, phases, hlink, hsetter, if_true, List.length_nil]
        omega
  | inserting todo results args hcommand hsetter hcall hcommit =>
      cases hsetter.symm.trans hmarking
  | _ => cases hi.handler.symm.trans hsetting

theorem simulates_reply (h : Refines c a) (ha : Inv file commands a)
    (hstep : step path c (.reply i) = some c') :
    ∃ u a', exec (System.step path) a u = some a' ∧ Refines c' a' ∧
      work c' a' + 1 ≤ work c a := by
  have hi := h.links i
  have hstage := ha.stage i
  generalize hlink : a.links i = link at hi hstage
  cases hstage with
  | answering todo results command response hcommand hsetter hcommit hresponse =>
      simp only [step, hi.handler, Option.some.injEq] at hstep
      subst hstep
      have hframe : System.step path a (.reply i) = some (a.setLink i
          ⟨todo, .waiting, results, [], .idle, [response]⟩) := by
        simp only [System.step, hlink]
        rfl
      have hfits := hi.answering response hi.handler
      obtain ⟨taken, unread, hsplit, hdelivered, hdown⟩ := hi.responses
      obtain ⟨rfl, rfl⟩ := List.append_eq_nil_iff.mp hsplit.symm
      refine h.framed hframe h.server h.log (fun j hj => Function.update_of_ne hj ..)
        (fun j hj => Function.update_of_ne hj ..) (fun _ _ => rfl)
        (Function.update_self ..) (Function.update_self ..) ?_ ?_
      · have hflow := hi.requests
        rw [Link.receiving, hi.handler, if_neg (by simp)] at hflow
        exact
          { hi with
            handler := rfl
            requests := hflow
            responses := ⟨[], [response], rfl, hdelivered, (hdown.write hfits).1⟩
            answering := fun _ hanswering => by cases hanswering }
      · have hwork := Carries.work_write hdown hfits
        simp only [workLeft, phases, hlink, if_true, List.length_nil, List.length_cons]
        omega
  | _ =>
      simp only [step, hi.handler] at hstep
      cases hstep

/-- The client accepts what the server answers, wherever in its buffer it lies. -/
theorem deliver_eq (link : Link) (hpromise : link.promise = none)
    (hcomplete : link.client.Complete) {value : Str}
    (hresult : (Client.resolveHandler link.client.pending).result = (.EOK, value)) :
    deliver link =
      { link with promise := some (.EOK, value), client := link.client.clear } := by
  have hbuffer : Client.resolveHandler link.client.buffer =
      Client.resolveHandler link.client.pending := by
    rw [TSession.buffer_eq,
      Client.resolveHandler_append _ ((TSession.complete_iff _).mp hcomplete)]
  have hanswer : (Client.resolveHandler link.client.pending).answer = true := by
    rw [Client.resolveHandler] at hresult ⊢
    dsimp only at hresult ⊢
    split at hresult
    · cases hresult
    · next hverify => rw [if_neg hverify]
  simp only [deliver, hpromise, hbuffer, hresult, hanswer, if_true]

theorem answer_eq (file : Str) (commands : Fin nclients → List TCommandPair)
    (order : List (Op nclients)) (op : Op nclients) (command : TCommandPair) :
    ∃ value, answer file commands order op command = (.EOK, value) := by
  unfold answer
  split
  · exact ⟨_, rfl⟩
  · exact ⟨_, rfl⟩

theorem simulates_readDown (h : Refines c a) (ha : Inv file commands a) {n : ℕ}
    (hstep : step path c (.readDown i n) = some c') :
    ∃ u a', exec (System.step path) a u = some a' ∧ Refines c' a' ∧
      work c' a' + 1 ≤ work c a := by
  have hi := h.links i
  simp only [step, Option.ite_none_right_eq_some] at hstep
  obtain ⟨-, hstep⟩ := hstep
  obtain ⟨⟨down, client⟩, hread, rfl⟩ := Option.map_eq_some_iff.mp hstep
  obtain ⟨taken, unread, hsplit, hdelivered, hflow⟩ := hi.responses
  obtain ⟨hwork, ⟨hpart, hflow'⟩ | ⟨hcomplete, rest, hunread, hflow'⟩⟩ := hflow.read hread
  · rw [if_neg hpart]
    apply h.stutter
    · exact { hi with responses := ⟨taken, unread, hsplit, hdelivered, hflow'⟩ }
    · exact Nat.add_lt_add_left hwork _
  · rw [if_pos hcomplete]
    have hstage := ha.stage i
    generalize hlink : a.links i = link at hi hstage hsplit
    cases hstage with
    | responded todo results command response hcommand hsetter hcommit hresponse =>
        -- the only response is the one that has just become complete
        obtain ⟨rfl, rfl, rfl⟩ : taken = [] ∧ client.pending = response ∧ rest = [] := by
          rw [hunread] at hsplit
          cases taken with
          | nil =>
              obtain ⟨hpending, hrest⟩ := List.cons.inj hsplit
              exact ⟨rfl, hpending.symm, hrest.symm⟩
          | cons first taken =>
              have hlen := congrArg List.length hsplit
              simp only [List.length_cons, List.length_append, List.length_nil] at hlen
              omega
        have hpromise : (c.links i).promise = none := by
          rw [Link.delivered, hi.main, if_pos rfl] at hdelivered
          cases hpromise : (c.links i).promise with
          | none => rfl
          | some result =>
              rw [hpromise] at hdelivered
              cases hdelivered
        obtain ⟨value, hvalue⟩ := answer_eq file commands
          (commits a.log) (i, results.length) command
        rw [deliver_eq { c.links i with down := down, client := client } hpromise hcomplete
          (hresponse.trans hvalue)]
        apply h.stutter
        · rw [hlink]
          refine
            { hi with
              responses := ⟨[client.pending], [], rfl, ?_, hflow'⟩ }
          rw [List.map_singleton, hresponse, hvalue, Link.delivered, if_pos hi.main]
          rfl
        · exact Nat.add_lt_add_left hwork _
    | _ =>
        rw [hunread] at hsplit
        cases taken <;> cases hsplit

theorem simulates_resume (h : Refines c a) (ha : Inv file commands a)
    (hstep : step path c (.resume i) = some c') :
    ∃ u a', exec (System.step path) a u = some a' ∧ Refines c' a' ∧
      work c' a' + 1 ≤ work c a := by
  have hi := h.links i
  have hstage := ha.stage i
  generalize hlink : a.links i = link at hi hstage
  have hgiven : ∃ command rest result, (c.links i).main = .waiting ∧
      (c.links i).todo = command :: rest ∧ (c.links i).promise = some result ∧
        c' = resume c i command rest result := by
    simp only [step, hi.reader] at hstep
    split at hstep
    · next hreader => cases hreader
    · next command rest result hmain htodo hpromise _ =>
        exact ⟨command, rest, result, hmain, htodo, hpromise, (Option.some.inj hstep).symm⟩
    · cases hstep
  obtain ⟨command, rest, result, hmain, htodo, hpromise, rfl⟩ := hgiven
  obtain ⟨taken, unread, hsplit, hdelivered, hflow⟩ := hi.responses
  rw [Link.delivered, if_pos hmain, hpromise] at hdelivered
  obtain ⟨message, rfl, hresult⟩ := List.map_eq_singleton_iff.mp hdelivered
  cases hstage with
  | responded todo results command' response hcommand hsetter hcommit hresponse =>
      obtain ⟨rfl, rfl⟩ : message = response ∧ unread = [] := by
        obtain ⟨hmessage, hnil⟩ := List.cons.inj hsplit
        exact ⟨hmessage.symm, hnil.symm⟩
      obtain ⟨value, hvalue⟩ := answer_eq file commands
        (commits a.log) (i, results.length) command'
      obtain rfl := hresult.symm.trans (hresponse.trans hvalue)
      have hreturned : (conclude command (.EOK, value)).returned = .ok true := rfl
      obtain rfl : todo = command :: rest := hi.todo.symm.trans htodo
      have hframe : System.step path a (.receive i) = some ((a.setLink i
          ⟨rest, .ready, results ++ [(.EOK, value)], [], .idle, []⟩).record
            (.ret (a.op i))) := by
        simp only [System.step, hlink, System.receive, hresult, hreturned]
      have hop : c.op i = a.op i := by rw [State.op, System.State.op, hi.results, hlink]
      simp only [resume, hreturned]
      refine h.framed hframe h.server (by rw [← hop]; exact congrArg (· ++ _) h.log)
        (fun j hj => Function.update_of_ne hj ..) (fun j hj => Function.update_of_ne hj ..)
        (fun _ _ => rfl) (Function.update_self ..) (Function.update_self ..) ?_ ?_
      · exact
          { todo := rfl
            main := rfl
            results := congrArg (· ++ _) hi.results
            handler := hi.handler
            reader := hi.reader
            requests := hi.requests
            responses := ⟨[], [], rfl, rfl, hflow⟩
            answering := hi.answering }
      · simp only [workLeft, phases, hlink, if_true, reduceCtorEq, if_false, List.tail_cons,
          List.length_cons, List.length_nil]
        omega
  | _ => cases hsplit

theorem simulates_sync {e : Runtime.Event nclients} (h : Refines c a)
    (ha : Inv file commands a) (hstep : step path c (.sync e) = some c') :
    ∃ u a', exec (System.step path) a u = some a' ∧ Refines c' a' ∧ work c' a' ≤ work c a := by
  simp only [step, Option.ite_none_right_eq_some] at hstep
  obtain ⟨hsync, hstep⟩ := hstep
  obtain ⟨server, hserver, rfl⟩ := Option.map_eq_some_iff.mp hstep
  rw [h.server] at hserver
  obtain ⟨-, -, -, hsetters, -⟩ := local_sync ha.phase hsync hserver
  have hframe : System.step path a (.sync e) = some { a with server := server } := by
    simp only [System.step, hsync, if_true, hserver]
    rfl
  refine ⟨[.sync e], _, exec_cons_eq_some.mpr ⟨_, hframe, rfl⟩, ⟨rfl, h.log, h.links⟩, ?_⟩
  simp only [work, hsetters]
  exact le_refl _

/-- Every step of the bytes is a run of the frames. -/
theorem simulates (hcommands : ∀ i, ∀ command ∈ commands i, Sendable command)
    (hfile : ∀ key value, (loadText file ∅).lookup key = some value →
      Message.Small ⟨ECMD.READ_RESPONSE, value⟩) :
    Simulates (step path) (System.step path)
      (fun (c : State nclients) a => Refines c a ∧ Inv file commands a) work cost := by
  apply simulates_of_invariant (fun _ _ _ => inv_step hcommands hfile)
  intro c a e c' h ha hstep
  cases e with
  | send i => exact simulates_send hcommands h ha hstep
  | sendUp i k n => exact simulates_sendUp h hstep
  | readUp i n => exact simulates_readUp hcommands h ha hstep
  | get i => exact simulates_get hcommands hfile h ha hstep
  | insert i => exact simulates_insert h ha hstep
  | mark i => exact simulates_mark h ha hstep
  | reply i => exact simulates_reply h ha hstep
  | sendDown i k n => exact simulates_sendDown h hstep
  | readDown i n => exact simulates_readDown h ha hstep
  | resume i => exact simulates_resume h ha hstep
  | sync e => exact simulates_sync h ha hstep

theorem refines_start : Refines (start file commands) (System.start file commands) where
  server := rfl
  log := rfl
  links _ :=
    { todo := rfl
      main := rfl
      results := rfl
      handler := rfl
      reader := rfl
      requests := .start
      responses := ⟨[], [], rfl, rfl, .start⟩
      answering := fun _ hanswering => by cases hanswering }

theorem work_start (file : Str) (commands : Fin nclients → List TCommandPair) :
    work (start file commands) (System.start file commands) =
      49158 * ∑ i, (commands i).length := by
  rw [Finset.mul_sum]
  refine Finset.sum_congr rfl fun i _ => ?_
  show 8193 * (6 * (commands i).length) + 0 = _
  omega

/-- Whatever has been done byte by byte can be done frame by frame. -/
theorem refined_run (hcommands : ∀ i, ∀ command ∈ commands i, Sendable command)
    (hfile : ∀ key value, (loadText file ∅).lookup key = some value →
      Message.Small ⟨ECMD.READ_RESPONSE, value⟩) {events : List (Event nclients)}
    (hrun : exec (step path) (start file commands) events = some c) :
    ∃ frames a, exec (System.step path) (System.start file commands) frames = some a ∧
      Refines c a ∧ Inv file commands a ∧
      work c a + (events.map cost).sum ≤ 49158 * ∑ i, (commands i).length := by
  obtain ⟨frames, a, hframes, ⟨hrefines, ha⟩, hwork⟩ :=
    (simulates hcommands hfile).run ⟨refines_start, inv_start⟩ hrun
  exact ⟨frames, a, hframes, hrefines, ha, work_start file commands ▸ hwork⟩

/-! ### Progress -/

theorem exists_readUp (hcommands : ∀ i, ∀ command ∈ commands i, Sendable command)
    (h : Refines c a) (ha : Inv file commands a) (hidle : (c.links i).handler = .idle)
    (hsetter : a.server.setters i = .idle) {command : TCommandPair} {message : Str}
    (hcommand : command ∈ commands i) (hmessage : request command = some message)
    (hrequests : (a.links i).requests = [message]) :
    ∃ e, cost e = 1 ∧ (step path c e).isSome := by
  have hflow := (h.links i).requests
  rw [Link.receiving, if_pos hidle, hrequests] at hflow
  rcases hflow.exists_step (List.cons_ne_nil message []) with ⟨k, n, up, hup⟩ | ⟨up, session, hread⟩
  · exact ⟨.sendUp i k n, rfl, by rw [step, hup]; rfl⟩
  · obtain ⟨-, ⟨hpart, -⟩ | ⟨hcomplete, rest, hsplit, -⟩⟩ := hflow.read hread
    · refine ⟨.readUp i 1, rfl, ?_⟩
      rw [step, if_pos hidle, hread, Option.bind_some, if_neg hpart]
      rfl
    · obtain ⟨hpending, -⟩ := List.cons.inj hsplit
      have hhandle : step path c (.readUp i 1) =
          handle path c i { c.links i with up := up, session := session } := by
        rw [step, if_pos hidle, hread]
        exact if_pos hcomplete
      have hserving : c.server.phase = .serving ∧ c.server.setters i = .idle :=
        h.server ▸ ⟨ha.phase, hsetter⟩
      refine ⟨.readUp i 1, rfl, ?_⟩
      rw [hhandle]
      cases hcommands i command hcommand with
      | @get key hsmall =>
          obtain rfl := Option.some.inj ((request_get key).symm.trans hmessage)
          rw [handle_get hsmall hcomplete hpending.symm]
          rfl
      | @set args hsmall =>
          obtain rfl := Option.some.inj ((request_set args).symm.trans hmessage)
          rw [handle_set hsmall hcomplete hpending.symm, Runtime.step, if_pos hserving]
          rfl

theorem exists_step (hcommands : ∀ i, ∀ command ∈ commands i, Sendable command)
    (h : Refines c a) (ha : Inv file commands a) (htodo : (c.links i).todo ≠ []) :
    ∃ e, cost e = 1 ∧ (step path c e).isSome := by
  have hi := h.links i
  have hstage := ha.stage i
  have hlogged := ha.logged i
  have hserver := h.server
  generalize hlink : a.links i = link at hi hstage
  cases hstage with
  | ready todo results hsetter hcall =>
      obtain ⟨command, rest, hcons⟩ := List.exists_cons_of_ne_nil htodo
      have hmem : command ∈ commands i := by
        have hdrop := hlogged.todo
        rw [hlink, ← hi.todo, hcons] at hdrop
        have hhead : command ∈ (commands i).drop results.length := hdrop ▸ List.mem_cons_self
        exact List.mem_of_mem_drop hhead
      obtain ⟨message, hmessage, -⟩ := fitsBuffer_request (hcommands i command hmem)
      refine ⟨.send i, rfl, ?_⟩
      simp only [step, hi.reader, hi.main, hcons, hmessage, Option.isSome_some]
  | requested todo results command message hcommand hmessage hsetter hcall hcommit =>
      exact exists_readUp hcommands h ha hi.handler hsetter (List.mem_of_getElem? hcommand)
        hmessage (by rw [hlink])
  | getting todo results key hcommand hsetter hcall hcommit =>
      refine ⟨.get i, rfl, ?_⟩
      simp only [step, hi.handler, Option.isSome_some]
  | inserting todo results args hcommand hsetter hcall hcommit =>
      refine ⟨.insert i, rfl, ?_⟩
      simp only [step, hi.handler, if_true, hserver, Runtime.step, hsetter, Option.map_some,
        Option.isSome_some]
  | marking todo results args hcommand hsetter hcommit =>
      refine ⟨.mark i, rfl, ?_⟩
      simp only [step, hi.handler, if_true, hserver, Runtime.step, hsetter, Option.map_some,
        Option.isSome_some]
  | answering todo results command response hcommand hsetter hcommit hresponse =>
      refine ⟨.reply i, rfl, ?_⟩
      simp only [step, hi.handler, Option.isSome_some]
  | responded todo results command response hcommand hsetter hcommit hresponse =>
      cases hpromise : (c.links i).promise with
      | some result =>
          obtain ⟨command, rest, hcons⟩ := List.exists_cons_of_ne_nil htodo
          refine ⟨.resume i, rfl, ?_⟩
          simp only [step, hi.reader, hi.main, hcons, hpromise, Option.isSome_some]
      | none =>
          obtain ⟨taken, unread, hsplit, hdelivered, hflow⟩ := hi.responses
          rw [Link.delivered, hi.main, if_pos rfl, hpromise] at hdelivered
          obtain rfl := List.map_eq_nil_iff.mp hdelivered
          have hne : unread ≠ [] := fun hnil => by cases hsplit.trans hnil
          rcases hflow.exists_step hne with ⟨k, n, down, hdown⟩ | ⟨down, client, hread⟩
          · exact ⟨.sendDown i k n, rfl, by rw [step, hdown]; rfl⟩
          · refine ⟨.readDown i 1, rfl, ?_⟩
            rw [step, if_pos hi.reader, hread]
            rfl

/-- There is a run in which every command is answered. -/
theorem exists_finished (path : String) (file : Str)
    (commands : Fin nclients → List TCommandPair)
    (hcommands : ∀ i, ∀ command ∈ commands i, Sendable command)
    (hfile : ∀ key value, (loadText file ∅).lookup key = some value →
      Message.Small ⟨ECMD.READ_RESPONSE, value⟩) :
    ∃ events c, exec (step path) (start file commands) events = some c ∧
      ∀ i, (c.links i).todo = [] := by
  have hfinish := exists_run_of_progress (step path)
    (fun c n => ∃ a, Refines c a ∧ Inv file commands a ∧ work c a = n)
    (fun c : State nclients => ∀ i, (c.links i).todo = []) ?_ ⟨_, refines_start, inv_start, rfl⟩
  · obtain ⟨events, c, hrun, -, hdone⟩ := hfinish
    exact ⟨events, c, hrun, hdone⟩
  · rintro c n ⟨a, hrefines, ha, rfl⟩ hnot
    obtain ⟨i, htodo⟩ := not_forall.mp hnot
    obtain ⟨e, hcost, hsome⟩ := exists_step hcommands hrefines ha htodo
    obtain ⟨c', hstep⟩ := Option.isSome_iff_exists.mp hsome
    obtain ⟨-, a', -, ⟨hrefines', ha'⟩, hwork⟩ :=
      simulates hcommands hfile c a e c' ⟨hrefines, ha⟩ hstep
    exact ⟨e, c', _, hstep, ⟨a', hrefines', ha', rfl⟩, by omega⟩

/-! ### Whole runs -/

/-- Byte by byte and in any interleaving the clients see what they see in a run of whole
frames, and when all are done there is an order of the commands that explains every
answer and the map. -/
theorem linearizable_bytes (path : String) (file : Str)
    (commands : Fin nclients → List TCommandPair)
    (hcommands : ∀ i, ∀ command ∈ commands i, Sendable command)
    (hfile : ∀ key value, (loadText file ∅).lookup key = some value →
      Message.Small ⟨ECMD.READ_RESPONSE, value⟩)
    (events : List (Event nclients)) (c : State nclients)
    (hrun : exec (step path) (start file commands) events = some c) :
    ∃ frames a, exec (System.step path) (System.start file commands) frames = some a ∧
      Refines c a ∧ ((∀ i, (c.links i).todo = []) → ∃ order, Linearizes file commands a order) := by
  obtain ⟨frames, a, hframes, hrefines, ha, -⟩ := refined_run hcommands hfile hrun
  refine ⟨frames, a, hframes, hrefines, fun hdone => ⟨commits a.log, linearizes_commits ha ?_⟩⟩
  exact fun i => (hrefines.links i).todo.symm.trans (hdone i)

theorem sendable_setAndGet : ∀ i, ∀ command ∈ setAndGet i, Sendable command := by
  refine Fin.forall_fin_two.mpr ⟨?_, ?_⟩
  · exact List.forall_mem_singleton.mpr (Sendable.set (by decide))
  · exact List.forall_mem_singleton.mpr (Sendable.get (by decide))

theorem small_loadText_nil : ∀ key value, (loadText [] ∅).lookup key = some value →
    Message.Small ⟨ECMD.READ_RESPONSE, value⟩ := by
  intro key value h
  cases h

theorem linearizable_bytes_setAndGet :
    ∃ events c frames a, exec (step "kvfile.txt") (start [] setAndGet) events = some c ∧
      exec (System.step "kvfile.txt") (System.start [] setAndGet) frames = some a ∧
      Refines c a ∧ ∃ order, Linearizes [] setAndGet a order := by
  obtain ⟨events, c, hrun, hdone⟩ := exists_finished "kvfile.txt" [] setAndGet
    sendable_setAndGet small_loadText_nil
  obtain ⟨frames, a, hframes, hrefines, horder⟩ := linearizable_bytes "kvfile.txt" [] setAndGet
    sendable_setAndGet small_loadText_nil events c hrun
  exact ⟨events, c, frames, a, hrun, hframes, hrefines, horder hdone⟩

/-- Where a session waits for bytes, `Read` has asserted what it should and asked for what
the message lacks and the buffer has room for. -/
def ReadsInside (session : TSession) : Prop :=
  session.ReadAssert ∧ 0 < session.readsize.toNat ∧
    session.bufferSize.toNat + session.readsize.toNat ≤ session.maxMessageSize.toNat

/-- Nothing goes wrong on a connection. -/
structure Sound (c : Link) : Prop where
  session : c.handler = .idle → ReadsInside c.session
  client : ReadsInside c.client
  reader : c.reader = .reading
  handler : c.handler ≠ .rejected
  main : c.main ≠ .thrown
  up : c.up.channel.stream <+: c.up.channel.queued.flatten
  down : c.down.channel.stream <+: c.down.channel.queued.flatten

theorem readsInside_of_flow {session : TSession} {p : Pipe} {frames : List Str}
    (h : Flow session p frames) : ReadsInside session :=
  ⟨h.safe.1, TSession.readsize_pos h.safe.1, h.safe.2⟩

/-- No message is rejected, no promise is given a second value, the messages go out whole
and in order, and no read leaves its buffer. -/
theorem sound_of_run (path : String) (file : Str) (commands : Fin nclients → List TCommandPair)
    (hcommands : ∀ i, ∀ command ∈ commands i, Sendable command)
    (hfile : ∀ key value, (loadText file ∅).lookup key = some value →
      Message.Small ⟨ECMD.READ_RESPONSE, value⟩)
    (events : List (Event nclients)) (c : State nclients)
    (hrun : exec (step path) (start file commands) events = some c) (i : Fin nclients) :
    Sound (c.links i) := by
  obtain ⟨-, a, -, hrefines, ha, -⟩ := refined_run hcommands hfile hrun
  have hi := hrefines.links i
  obtain ⟨taken, unread, -, -, hdown⟩ := hi.responses
  refine ⟨fun hidle => ?_, readsInside_of_flow hdown, hi.reader, ?_, ?_,
    hi.requests.whole.stream_prefix, hdown.whole.stream_prefix⟩
  · have hup := hi.requests
    rw [Link.receiving, if_pos hidle] at hup
    exact readsInside_of_flow hup
  · rw [hi.handler]
    have hstage := ha.stage i
    generalize a.links i = link at hstage
    cases hstage <;> exact fun h => by cases h
  · rw [hi.main]
    have hstage := ha.stage i
    generalize a.links i = link at hstage
    cases hstage <;> exact fun h => by cases h

theorem sound_of_run_setAndGet :
    ∃ events c, exec (step "kvfile.txt") (start [] setAndGet) events = some c ∧
      (c.links 1).todo = [] ∧ Sound (c.links 1) := by
  obtain ⟨events, c, hrun, hdone⟩ := exists_finished "kvfile.txt" [] setAndGet
    sendable_setAndGet small_loadText_nil
  exact ⟨events, c, hrun, hdone 1, sound_of_run "kvfile.txt" [] setAndGet sendable_setAndGet
    small_loadText_nil events c hrun 1⟩

/-- As long as a client has not got all its answers some step is possible that the
storage has no part in, and there are never more of these than the commands pay for. So
every run in which such steps do not stop for good answers every command. -/
theorem progress_bytes (path : String) (file : Str) (commands : Fin nclients → List TCommandPair)
    (hcommands : ∀ i, ∀ command ∈ commands i, Sendable command)
    (hfile : ∀ key value, (loadText file ∅).lookup key = some value →
      Message.Small ⟨ECMD.READ_RESPONSE, value⟩)
    (events : List (Event nclients)) (c : State nclients)
    (hrun : exec (step path) (start file commands) events = some c) :
    ((∃ i, (c.links i).todo ≠ []) → ∃ e, cost e = 1 ∧ (step path c e).isSome) ∧
      (events.map cost).sum ≤ 49158 * ∑ i, (commands i).length := by
  obtain ⟨-, a, -, hrefines, ha, hwork⟩ := refined_run hcommands hfile hrun
  refine ⟨fun ⟨i, htodo⟩ => exists_step hcommands hrefines ha htodo, ?_⟩
  omega

theorem progress_bytes_setAndGet :
    (∃ e : Event 2, cost e = 1 ∧ (step "kvfile.txt" (start [] setAndGet) e).isSome) ∧
      ∃ events c, exec (step "kvfile.txt") (start [] setAndGet) events = some c ∧
        (∀ i, (c.links i).todo = []) ∧ (events.map cost).sum ≤ 98316 := by
  obtain ⟨events, c, hrun, hdone⟩ := exists_finished "kvfile.txt" [] setAndGet
    sendable_setAndGet small_loadText_nil
  have hfirst := (progress_bytes "kvfile.txt" [] setAndGet sendable_setAndGet
    small_loadText_nil [] _ rfl).1 ⟨0, by decide⟩
  have hbound := (progress_bytes "kvfile.txt" [] setAndGet sendable_setAndGet
    small_loadText_nil events c hrun).2
  exact ⟨hfirst, events, c, hrun, hdone, hbound⟩

end GJServer.System.Bytes
