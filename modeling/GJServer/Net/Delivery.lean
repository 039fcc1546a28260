import GJServer.Net.Stream

/-!
What arrives when the peer sends frames that `MakeCommand` built: on a session
whose buffer is empty, exactly the messages sent. A session keeps its buffer
when it reconnects, so on a new connection this holds exactly when the old one
was lost between two messages.
-/

namespace GJServer.Net

open Library Framing Exec

/-- The bytes of the frames of `msgs`, one after the other. -/
def stream (msgs : List Message) : Str := (msgs.map Message.frame).flatten

/-- The content leaves room for the header in the buffer of a session. -/
def Message.Small (m : Message) : Prop :=
  m.content.length ≤ TSession.DEFAULT_MAX_MESSAGE_SIZE.toNat - 8

instance (m : Message) : Decidable m.Small := inferInstanceAs (Decidable (_ ≤ _))

theorem Message.Small.fits {m : Message} (hm : m.Small) : m.Fits := by
  have hlen : m.content.length ≤ 4088 := hm
  rw [Message.Fits]
  omega

/-- The messages whose frame lies wholly in the first `n` bytes of the stream. -/
def arrived (msgs : List Message) (n : ℕ) : List Message :=
  wholeItems (fun m => m.frame.length) msgs n

/-- The bytes that the first `n` bytes of the stream hold of a frame that is not
wholly among them. -/
def underway (msgs : List Message) (n : ℕ) : ℕ :=
  unfinishedLength (fun m => m.frame.length) msgs n

theorem wellSized_stream (handler : List Str → Bool) {msgs : List Message}
    (hmsgs : ∀ m ∈ msgs, m.Small) :
    WellSized handler TSession.DEFAULT_MAX_MESSAGE_SIZE (stream msgs) := by
  intro fs r hstream hframes _ hr
  have hall : ∀ g ∈ msgs.map Message.frame, frameFormat.IsFrame g := by
    intro g hg
    obtain ⟨m, hm, rfl⟩ := List.mem_map.mp hg
    exact Message.isFrame (hmsgs m hm).fits
  rw [stream, ← List.append_nil (msgs.map Message.frame).flatten] at hstream
  rcases frames_cancel hframes hall hstream with ⟨ks, hks, hrest⟩ | ⟨ks, -, -, hrest⟩
  · cases ks with
    | nil =>
        rw [hrest] at hr
        exact absurd hr (by decide)
    | cons k ks =>
        have hk : k ∈ msgs.map Message.frame := by
          rw [hks]
          simp
        obtain ⟨m, hm, rfl⟩ := List.mem_map.mp hk
        have hlen : m.content.length ≤ 4088 := hmsgs m hm
        have hframe := Message.frame_length (hmsgs m hm).fits
        rw [hrest, List.flatten_cons, List.append_assoc,
          THeader.ofBytes_append _ (by omega), Message.size_frame (hmsgs m hm).fits, hframe]
        refine ⟨Nat.le_add_left .., ?_⟩
        show m.content.length + 8 ≤ 4096
        omega
  · obtain rfl : r = [] := (List.append_eq_nil_iff.mp hrest.symm).2
    exact absurd hr (by decide)

theorem map_message_of_frames {ds : List Dispatch} {msgs : List Message}
    (hmsgs : ∀ m ∈ msgs, m.Small) (h : ds.map Dispatch.frame = msgs.map Message.frame) :
    ds.map Dispatch.message = msgs := by
  induction msgs generalizing ds with
  | nil =>
      rw [List.map_nil, List.map_eq_nil_iff] at h
      rw [h, List.map_nil]
  | cons m msgs ih =>
      cases ds with
      | nil => cases h
      | cons d ds =>
          rw [List.map_cons, List.map_cons, List.cons.injEq] at h
          rw [List.map_cons, Dispatch.message_eq (hmsgs m (by simp)).fits h.1,
            ih (fun n hn => hmsgs n (List.mem_cons_of_mem _ hn)) h.2]

namespace Connection

theorem reading_of_accepting {s : TSession} {frags : List Str} {c : Connection}
    (hrun : exec (onRead fun _ => true) (start s) frags = some c) : c.reading = true := by
  cases hreading : c.reading with
  | true => rfl
  | false => cases ((answered_of_exec hrun).rejected hreading).2

/-- A connection that `n` bytes of the frames of `msgs` have come in on: the session has
handed over the messages that have arrived, keeps what it has of the next, and goes on
reading; and the socket may answer with any bytes, one at least and not more than were
asked for. -/
structure Delivered (msgs : List Message) (n : ℕ) (c : Connection) : Prop where
  reading : c.reading = true
  inside : c.ReadsInside
  dispatched : c.dispatched.map Dispatch.message = arrived msgs n
  bufferSize : c.session.bufferSize.toNat = underway msgs n
  accepts : ∀ bytes, bytes ≠ [] → bytes.length ≤ c.session.readsize.toNat →
    ∃ c', c.onRead (fun _ => true) bytes = some c'

/-- A session with an empty buffer does so, whatever bytes earlier messages left in it. -/
theorem delivery_of_empty {s : TSession} (hs : s.pending = [])
    (hmax : s.maxMessageSize = TSession.DEFAULT_MAX_MESSAGE_SIZE) {msgs : List Message}
    (hmsgs : ∀ m ∈ msgs, m.Small) {frags : List Str} {c : Connection}
    (hfrags : frags.flatten <+: stream msgs)
    (hrun : exec (onRead fun _ => true) (start s) frags = some c) :
    Delivered msgs frags.flatten.length c := by
  have hreading := reading_of_accepting hrun
  have hsized : WellSized (fun _ => true) s.maxMessageSize (stream msgs) :=
    hmax ▸ wellSized_stream _ hmsgs
  have hinside := readsInside_of_wellSized hs (by rw [hmax]; decide) hsized hfrags hrun
  have hc : c.Consumed frags.flatten := by
    have hc := consumed_of_exec hrun
    rwa [hs] at hc
  obtain ⟨r, hdec, hlen⟩ := prefix_decomposes (F := frameFormat) Message.frame msgs
    (fun m hm => Message.isFrame (hmsgs m hm).fits) hfrags
  obtain ⟨hframes, hpending⟩ :=
    (hc.decomposes hreading (hinside.readAssert hreading)).unique hdec
  refine ⟨hreading, hinside, map_message_of_frames (fun m hm => hmsgs m ?_) hframes, ?_,
    fun bytes => hinside.accepts hreading⟩
  · exact mem_of_mem_wholeItems hm
  · rw [← TSession.pending_length, hpending, hlen]
    rfl

/-- Every prefix of the stream can be delivered. -/
theorem deliverable {s : TSession} (hs : s.pending = [])
    (hmax : s.maxMessageSize = TSession.DEFAULT_MAX_MESSAGE_SIZE) {msgs : List Message}
    (hmsgs : ∀ m ∈ msgs, m.Small) {l : Str} (hl : l <+: stream msgs) :
    ∃ frags c, frags.flatten = l ∧ exec (onRead fun _ => true) (start s) frags = some c := by
  obtain ⟨frags, c, -, hrun, ⟨hflat, -⟩ | hstopped⟩ := feed
    (fun frags c hfrags hrun => (delivery_of_empty hs hmax hmsgs hfrags hrun).inside) hl
  · exact ⟨frags, c, hflat, hrun⟩
  · rw [reading_of_accepting hrun] at hstopped
    cases hstopped

/-- However the stream of frames is cut into completions, a fresh session hands
over each message whose frame has arrived, once, in order and unchanged, holds the
bytes of the unfinished frame, and takes whatever completion comes next. -/
theorem framing_round_trip (msgs : List Message) (hmsgs : ∀ m ∈ msgs, m.Small)
    (frags : List Str) (hfrags : frags.flatten <+: stream msgs) (c : Connection)
    (hrun : exec (onRead fun _ => true) (start (.make TSession.DEFAULT_MAX_MESSAGE_SIZE))
      frags = some c) : Delivered msgs frags.flatten.length c :=
  delivery_of_empty rfl rfl hmsgs hfrags hrun

theorem framing_round_trip_two :
    ∃ frags c, frags.flatten = stream [⟨ECMD.READ_REQUEST, [49]⟩, ⟨ECMD.WRITE_RESPONSE, []⟩] ∧
      exec (onRead fun _ => true) (start (.make TSession.DEFAULT_MAX_MESSAGE_SIZE)) frags =
        some c ∧
      c.dispatched.map Dispatch.message =
        [⟨ECMD.READ_REQUEST, [49]⟩, ⟨ECMD.WRITE_RESPONSE, []⟩] ∧
      c.session.bufferSize.toNat = 0 ∧
      Delivered [⟨ECMD.READ_REQUEST, [49]⟩, ⟨ECMD.WRITE_RESPONSE, []⟩] frags.flatten.length
        c := by
  have hmsgs : ∀ m ∈ [(⟨ECMD.READ_REQUEST, [49]⟩ : Message), ⟨ECMD.WRITE_RESPONSE, []⟩],
      m.Small := by decide
  obtain ⟨frags, c, hflat, hrun⟩ := deliverable (TSession.pending_make _) rfl hmsgs
    (List.prefix_refl _)
  have hdelivery := framing_round_trip _ hmsgs frags (hflat ▸ List.prefix_refl _) c hrun
  have hdispatched := hdelivery.dispatched
  have hsize := hdelivery.bufferSize
  rw [hflat] at hdispatched hsize
  exact ⟨frags, c, hflat, hrun, hdispatched, hsize, hdelivery⟩

/-! ### A new connection with an old buffer -/

/-- On the new connection `Read` asserts what it should and stays inside the
buffer, and exactly the frames of the new connection are handed over. -/
def Resumes (s : TSession) : Prop :=
  ∀ msgs : List Message, (∀ m ∈ msgs, m.Small) → ∀ frags c, frags.flatten <+: stream msgs →
    exec (onRead fun _ => true) (start s.reconnect) frags = some c →
      c.ReadsInside ∧ c.dispatched.map Dispatch.message = arrived msgs frags.flatten.length

theorem resumes_of_empty {s : TSession}
    (hmax : s.maxMessageSize = TSession.DEFAULT_MAX_MESSAGE_SIZE) (hempty : s.bufferSize = 0) :
    Resumes s := by
  intro msgs hmsgs frags c hfrags hrun
  have hpending : s.pending = [] := by
    rw [TSession.pending, hempty]
    rfl
  have hdelivery := delivery_of_empty hpending hmax hmsgs hfrags hrun
  exact ⟨hdelivery.inside, hdelivery.dispatched⟩

theorem flatten_bytes (l : Str) : (l.map fun b => [b]).flatten = l := by
  rw [← List.flatMap_def, List.flatMap_singleton']

/-- An answer without content, the shortest frame there is. -/
def emptyResponse : Message := ⟨ECMD.WRITE_RESPONSE, []⟩

theorem small_emptyResponse : ∀ m ∈ [emptyResponse], m.Small := by decide

theorem arrived_emptyResponse {n : ℕ} (hn : n < 8) : arrived [emptyResponse] n = [] := by
  have hlen : ¬emptyResponse.frame.length ≤ n := by
    rw [Message.frame_length (by decide)]
    exact Nat.not_le.mpr hn
  simp [arrived, wholeItems, hlen]

/-- A session that resumes can be given the shortest frame byte by byte. -/
theorem feed_emptyResponse {s : TSession} (hres : Resumes s) {l : Str}
    (hl : l <+: stream [emptyResponse]) :
    ∃ c, exec (onRead fun _ => true) (start s.reconnect) (l.map fun b => [b]) = some c := by
  induction l using List.reverseRecOn with
  | nil => exact ⟨_, rfl⟩
  | append_singleton l b ih =>
      have hl' : l <+: stream [emptyResponse] := (List.prefix_append ..).trans hl
      obtain ⟨c, hrun⟩ := ih hl'
      have hinside := (hres _ small_emptyResponse _ c (by rwa [flatten_bytes]) hrun).1
      have hreading := reading_of_accepting hrun
      have hpos := hinside.readsize_pos hreading
      obtain ⟨c', hc'⟩ := hinside.accepts hreading (List.cons_ne_nil b []) hpos
      refine ⟨c', ?_⟩
      rw [List.map_append, List.map_singleton]
      exact exec_concat_eq_some.mpr ⟨c, hrun, hc'⟩

/-- When the shortest frame has arrived it has to be handed over, but then
nothing else may have been in front of it. -/
theorem empty_of_resumes {s : TSession} (hres : Resumes s) : s.bufferSize = 0 := by
  -- the frame is seven bytes and a last one
  have hsplit : stream [emptyResponse] = [0, 0, 0x22, 0, 8, 0, 0] ++ [0] := by decide
  obtain ⟨c', hrun'⟩ := feed_emptyResponse hres (List.prefix_refl _)
  have hdispatched' := (hres _ small_emptyResponse _ c' (flatten_bytes _ ▸ List.prefix_refl _)
    hrun').2
  have hwhole : arrived [emptyResponse] (stream [emptyResponse]).length = [emptyResponse] := by
    decide
  rw [flatten_bytes, hwhole] at hdispatched'
  rw [hsplit, List.map_append, List.map_singleton] at hrun'
  obtain ⟨c, hrun, hlast⟩ := exec_concat_eq_some.mp hrun'
  have hprefix : [0, 0, 0x22, 0, 8, 0, 0] <+: stream [emptyResponse] := ⟨[0], hsplit.symm⟩
  have hdispatched := (hres _ small_emptyResponse _ c (by rwa [flatten_bytes]) hrun).2
  rw [flatten_bytes, arrived_emptyResponse (by decide), List.map_eq_nil_iff] at hdispatched
  have hpending : c.session.pending = s.pending ++ [0, 0, 0x22, 0, 8, 0, 0] := by
    have hstream := (consumed_of_exec hrun).stream
    rwa [frames, hdispatched, unfinished, if_pos (reading_of_accepting hrun),
      flatten_bytes] at hstream
  obtain ⟨-, -, -, t, ht, hcase⟩ := onRead_cases hlast
  have hframe : t.pending = c.session.pending ++ [0] := (TSession.receive_eq_some ht).2.2
  have hcontent {d : Dispatch} (hcomplete : t.Complete) (hd : d = ⟨t.buffer, t.bufferSize⟩)
      (hmessage : d.message = emptyResponse) : s.bufferSize = 0 := by
    have hd' : d.frame = t.pending := hd ▸ frame_dispatch t
    have hview := Dispatch.contentView_eq (hd' ▸ (TSession.complete_iff t).mp hcomplete)
    have hempty : THeader.contentView d.memory = [] := congrArg Message.content hmessage
    have hlen := congrArg List.length (hempty.symm.trans hview)
    rw [hd', hframe, hpending] at hlen
    simp only [List.length_nil, List.length_drop, List.length_append, List.length_cons,
      TSession.pending_length] at hlen
    exact UInt32.toNat_inj.mp (show s.bufferSize.toNat = 0 by omega)
  rcases hcase with ⟨-, rfl⟩ | ⟨hcomplete, d, hd, ⟨-, rfl⟩ | ⟨-, rfl⟩⟩
  · rw [hdispatched] at hdispatched'
    cases hdispatched'
  all_goals
    rw [hdispatched, List.nil_append, List.map_singleton, List.singleton_inj] at hdispatched'
    exact hcontent hcomplete hd hdispatched'

/-- A session that lost its connection speaks the protocol on the next one
exactly when nothing of a message was left in its buffer. -/
theorem resumes_iff_empty (s : TSession)
    (hmax : s.maxMessageSize = TSession.DEFAULT_MAX_MESSAGE_SIZE) :
    Resumes s ↔ s.bufferSize = 0 :=
  ⟨empty_of_resumes, resumes_of_empty hmax⟩

/-- The connection is lost after a frame has been handled, whose bytes are still there. -/
theorem resumes_handled :
    ∃ c, exec (onRead fun _ => true) (start (.make TSession.DEFAULT_MAX_MESSAGE_SIZE))
        [[0, 0, 0x22, 0, 8, 0, 0, 0]] = some c ∧
      c.session.buffer.take 8 = [0, 0, 0x22, 0, 8, 0, 0, 0] ∧
      (Resumes c.session ↔ c.session.bufferSize = 0) ∧ Resumes c.session := by
  have hrun : ∃ c, exec (onRead fun _ => true) (start (.make TSession.DEFAULT_MAX_MESSAGE_SIZE))
        [[0, 0, 0x22, 0, 8, 0, 0, 0]] = some c ∧
      c.session.buffer.take 8 = [0, 0, 0x22, 0, 8, 0, 0, 0] ∧ c.session.bufferSize = 0 ∧
      c.session.maxMessageSize = TSession.DEFAULT_MAX_MESSAGE_SIZE := ⟨_, rfl, rfl, rfl, rfl⟩
  obtain ⟨c, hc, hbuffer, hempty, hmax⟩ := hrun
  have hiff := resumes_iff_empty c.session hmax
  exact ⟨c, hc, hbuffer, hiff, hiff.mpr hempty⟩

/-- Three bytes of a header arrive before the connection is lost. -/
theorem lost_in_header :
    ∃ c, exec (onRead fun _ => true) (start (.make TSession.DEFAULT_MAX_MESSAGE_SIZE))
        [[0, 0, 0x22]] = some c ∧ ¬Resumes c.session := by
  have hnext : ∃ c, (start (.make TSession.DEFAULT_MAX_MESSAGE_SIZE)).onRead (fun _ => true)
      [0, 0, 0x22] = some c := by
    apply onRead_isSome rfl (by decide)
    · decide
    · decide
  obtain ⟨c, hc⟩ := hnext
  have hrun : exec (onRead fun _ => true) (start (.make TSession.DEFAULT_MAX_MESSAGE_SIZE))
      [[0, 0, 0x22]] = some c := exec_cons_eq_some.mpr ⟨c, hc, rfl⟩
  refine ⟨c, hrun, fun hres => ?_⟩
  have hprefix : [[0, 0, 0x22]].flatten <+: stream [emptyResponse] :=
    ⟨[0, 8, 0, 0, 0], by decide⟩
  have hdelivery := delivery_of_empty (TSession.pending_make _) rfl small_emptyResponse
    hprefix hrun
  have hsize : c.session.bufferSize.toNat = 3 := hdelivery.bufferSize
  rw [empty_of_resumes hres] at hsize
  cases hsize

end Connection

end GJServer.Net
