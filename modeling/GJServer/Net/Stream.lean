import GJServer.Net.Session

/-!
What a session makes of the bytes of one connection.

The bytes consumed so far are the frames handed to the handler, one after the
other, followed by the pending message (`Connection.Consumed`); this holds for
every stream and every fragmentation. As long as the peer announces sizes
between eight and the length of the buffer (`WellSized`), the assertion of
`Read` holds, so the pending message is incomplete in the sense of the framing
library, and the decomposition of the consumed bytes is the only one there is.
-/

namespace GJServer.Net

open Library Framing Exec

namespace Connection

def unfinished (c : Connection) : Str := if c.reading then c.session.pending else []

/-- The frames and the pending message make up the consumed bytes `l`. -/
structure Consumed (c : Connection) (l : Str) : Prop where
  stream : c.frames.flatten ++ c.unfinished = l
  isFrame : ∀ f ∈ c.frames, frameFormat.IsFrame f

theorem consumed_start (s : TSession) : (start s).Consumed s.pending where
  stream := rfl
  isFrame f hf := by cases hf

theorem frame_dispatch (s : TSession) : Dispatch.frame ⟨s.buffer, s.bufferSize⟩ = s.pending :=
  rfl

theorem consumed_onRead {handler : List Str → Bool} {c c' : Connection} {bytes l : Str}
    (hc : c.Consumed l) (h : c.onRead handler bytes = some c') :
    c'.Consumed (l ++ bytes) := by
  obtain ⟨hreading, -, -, s, hs, hcase⟩ := onRead_cases h
  obtain ⟨-, -, hpending⟩ := TSession.receive_eq_some hs
  have hstream : c.frames.flatten ++ c.session.pending = l := by
    have hstream := hc.stream
    rwa [unfinished, if_pos hreading] at hstream
  have hjoin : c.frames.flatten ++ s.pending = l ++ bytes := by
    rw [hpending, ← List.append_assoc, hstream]
  -- both answers of the handler leave the completed frame in the list
  have hwhole (hcomplete : s.Complete) (t : TSession) (reading : Bool)
      (ht : unfinished ⟨t, reading, c.dispatched ++ [⟨s.buffer, s.bufferSize⟩]⟩ = []) :
      Consumed ⟨t, reading, c.dispatched ++ [⟨s.buffer, s.bufferSize⟩]⟩ (l ++ bytes) := by
    refine ⟨?_, ?_⟩
    · rw [ht, List.append_nil]
      simpa [frames, frame_dispatch] using hjoin
    · intro f hf
      rw [frames, List.map_append, List.map_singleton, frame_dispatch] at hf
      rcases List.mem_append.mp hf with hf | hf
      · exact hc.isFrame f hf
      · rw [List.mem_singleton.mp hf]
        exact (TSession.complete_iff s).mp hcomplete
  rcases hcase with ⟨-, rfl⟩ | ⟨hcomplete, d, rfl, ⟨-, rfl⟩ | ⟨-, rfl⟩⟩
  · exact ⟨hjoin, hc.isFrame⟩
  · exact hwhole hcomplete _ _ rfl
  · exact hwhole hcomplete _ _ rfl

/-- What a run consumed is what its start had pending and what it was given. -/
theorem consumed_of_exec {handler : List Str → Bool} {s : TSession} {c : Connection}
    {frags : List Str} (hrun : exec (onRead handler) (start s) frags = some c) :
    c.Consumed (s.pending ++ frags.flatten) := by
  refine exec_history (I := fun t c => Consumed c (s.pending ++ t.flatten)) ?_ ?_ hrun
  · rw [List.flatten_nil, List.append_nil]
    exact consumed_start s
  · intro t c bytes c' hc hstep
    rw [List.flatten_append, ← List.append_assoc]
    simpa using consumed_onRead hc hstep

theorem Consumed.decomposes {c : Connection} {l : Str} (hc : c.Consumed l)
    (hreading : c.reading = true) (hassert : c.session.ReadAssert) :
    Decomposes frameFormat l c.frames c.session.pending where
  flatten := by
    have hstream := hc.stream
    rwa [unfinished, if_pos hreading] at hstream
  frames := hc.isFrame
  rest := (TSession.readAssert_iff _).mp hassert

/-! ### The answers of the handler -/

/-- While the session reads, the handler has accepted every frame; when it does
not, the handler has rejected the last one. -/
structure Answered (handler : List Str → Bool) (c : Connection) : Prop where
  accepted : c.reading = true → ∀ gs, gs <+: c.frames → gs ≠ [] → handler gs = true
  rejected : c.reading = false → c.frames ≠ [] ∧ handler c.frames = false

theorem answered_onRead {handler : List Str → Bool} {c c' : Connection} {bytes : Str}
    (hc : c.Answered handler) (h : c.onRead handler bytes = some c') :
    c'.Answered handler := by
  obtain ⟨hreading, -, -, s, -, hcase⟩ := onRead_cases h
  have hframes (t : TSession) (reading : Bool) (d : Dispatch) :
      frames ⟨t, reading, c.dispatched ++ [d]⟩ = c.frames ++ [d.frame] := List.map_append
  rcases hcase with ⟨-, rfl⟩ | ⟨-, d, -, ⟨hanswer, rfl⟩ | ⟨hanswer, rfl⟩⟩
  · exact ⟨fun _ => hc.accepted hreading, fun hfalse => by cases hfalse⟩
  · refine ⟨fun _ gs hgs hne => ?_, fun hfalse => by cases hfalse⟩
    rw [hframes, List.prefix_concat_iff] at hgs
    rcases hgs with rfl | hgs
    · exact hanswer
    · exact hc.accepted hreading gs hgs hne
  · refine ⟨(fun htrue => by cases htrue), fun _ => ?_⟩
    rw [hframes]
    exact ⟨by simp, hanswer⟩

theorem answered_start (handler : List Str → Bool) (s : TSession) :
    (start s).Answered handler where
  accepted _ gs hgs hne := absurd (List.prefix_nil.mp hgs) hne
  rejected hfalse := by cases hfalse

theorem answered_of_exec {handler : List Str → Bool} {s : TSession} {c : Connection}
    {frags : List Str} (hrun : exec (onRead handler) (start s) frags = some c) :
    c.Answered handler :=
  exec_invariant (fun _ _ _ hc => answered_onRead hc) (answered_start handler s) hrun

end Connection

/-! ### The dispatched messages -/

theorem Dispatch.header_eq {d : Dispatch} (hd : frameFormat.IsFrame d.frame) :
    d.header = THeader.ofBytes d.frame := by
  have hlen : 8 ≤ d.frame.length := hd.1
  rw [Dispatch.frame, List.length_take] at hlen
  exact (THeader.ofBytes_take (by omega) (by omega)).symm

theorem Dispatch.contentSize_eq {d : Dispatch} (hd : frameFormat.IsFrame d.frame) :
    d.header.contentSize.toNat = d.frame.length - 8 := by
  have hsize : (THeader.ofBytes d.frame).size.toNat = d.frame.length := hd.2
  have hlen : 8 ≤ d.frame.length := hd.1
  rw [Dispatch.header_eq hd, THeader.contentSize_toNat (by omega), hsize]

/-- `ContentView` never reaches past the bytes received for the message. -/
theorem Dispatch.contentInside {d : Dispatch} (hd : frameFormat.IsFrame d.frame) :
    d.ContentInside := by
  have hlen : 8 ≤ d.frame.length := hd.1
  have hreceived : d.frame.length ≤ d.received.toNat := by
    rw [Dispatch.frame, List.length_take]
    exact Nat.min_le_left ..
  rw [Dispatch.ContentInside, Dispatch.contentSize_eq hd]
  omega

/-- The handler reads the buffer, but it sees the frame and nothing of what is
left behind it. -/
theorem Dispatch.contentView_eq {d : Dispatch} (hd : frameFormat.IsFrame d.frame) :
    THeader.contentView d.memory = d.frame.drop 8 := by
  have hlen : d.frame.length = min d.received.toNat d.memory.length := List.length_take
  show (d.memory.drop 8).take d.header.contentSize.toNat = _
  rw [Dispatch.contentSize_eq hd, Dispatch.frame, List.drop_take, List.take_eq_take_iff,
    List.length_drop]
  show min (d.frame.length - 8) _ = _
  omega

theorem Dispatch.message_eq {d : Dispatch} {m : Message} (hm : m.Fits)
    (hd : d.frame = m.frame) : d.message = m := by
  have hframe : frameFormat.IsFrame d.frame := hd ▸ Message.isFrame hm
  have hcmd : d.header.cmd = m.cmd := by
    rw [Dispatch.header_eq hframe, hd, Message.ofBytes_frame hm]
  have hcontent : THeader.contentView d.memory = m.content := by
    rw [Dispatch.contentView_eq hframe, hd, Message.frame_eq hm,
      List.drop_left' (THeader.toBytes_length _)]
  rw [Dispatch.message, hcmd, hcontent]

/-! ### The sizes a peer announces -/

/-- Wherever the stream goes on after frames that the handler accepted, the
header that follows, if it is there, announces a size from eight to `max`. -/
def WellSized (handler : List Str → Bool) (max : UInt32) (stream : Str) : Prop :=
  ∀ (fs : List Str) (r : Str), fs.flatten ++ r = stream →
    (∀ f ∈ fs, frameFormat.IsFrame f) →
    (∀ gs, gs <+: fs → gs ≠ [] → handler gs = true) → 8 ≤ r.length →
    8 ≤ (THeader.ofBytes r).size.toNat ∧ (THeader.ofBytes r).size.toNat ≤ max.toNat

namespace Connection

/-- What keeps a connection inside its buffer: the assertion of `Read`, a
positive read size that is the difference it was meant to be, its end inside
the buffer, and every content handed out inside the bytes received for it. -/
structure ReadsInside (c : Connection) : Prop where
  readAssert : c.reading = true → c.session.ReadAssert
  readsize_pos : c.reading = true → 0 < c.session.readsize.toNat
  readsize_exact : c.reading = true → c.session.bufferSize.toNat + c.session.readsize.toNat =
    if c.session.bufferSize < 8 then 8 else c.session.header.size.toNat
  readsize_le : c.reading = true → c.session.bufferSize.toNat + c.session.readsize.toNat ≤
    c.session.maxMessageSize.toNat
  contentInside : ∀ d ∈ c.dispatched, d.ContentInside

/-- A session that stays inside its buffer refuses no completion. -/
theorem ReadsInside.accepts {c : Connection} (h : c.ReadsInside) (hreading : c.reading = true)
    {handler : List Str → Bool} {bytes : Str} (hne : bytes ≠ [])
    (hlen : bytes.length ≤ c.session.readsize.toNat) :
    ∃ c', c.onRead handler bytes = some c' :=
  onRead_isSome hreading hne hlen
    ((Nat.add_le_add_left hlen _).trans (h.readsize_le hreading))

theorem contentInside_of_consumed {c : Connection} {l : Str} (hc : c.Consumed l) :
    ∀ d ∈ c.dispatched, d.ContentInside := by
  intro d hd
  exact Dispatch.contentInside (hc.isFrame d.frame (List.mem_map_of_mem hd))

/-- The size field of the pending message is one of those the condition on the
stream is about. -/
theorem size_pending_bounds {handler : List Str → Bool} {max : UInt32} {stream l : Str}
    {c : Connection} (hsized : WellSized handler max stream) (hl : l <+: stream)
    (hc : c.Consumed l) (hans : c.Answered handler) (hreading : c.reading = true)
    (hheader : 8 ≤ c.session.bufferSize.toNat) :
    8 ≤ c.session.header.size.toNat ∧ c.session.header.size.toNat ≤ max.toNat := by
  obtain ⟨rest, hrest⟩ := hl
  have hpending : 8 ≤ c.session.pending.length := by rwa [TSession.pending_length]
  have hstream := hc.stream
  rw [unfinished, if_pos hreading] at hstream
  have hbounds := hsized c.frames (c.session.pending ++ rest)
    (by rw [← List.append_assoc, hstream, hrest]) hc.isFrame (hans.accepted hreading)
    (by rw [List.length_append]; omega)
  rwa [THeader.ofBytes_append rest hpending, ← TSession.header_eq hheader] at hbounds

/-- A completion that neither completes the message nor brings a header with a
size below eight keeps the assertion. -/
theorem readAssert_receive {s s' : TSession} {bytes : Str} (hassert : s.ReadAssert)
    (hlen : bytes.length ≤ s.readsize.toNat) (hs : s.receive bytes = some s')
    (hcomplete : ¬s'.Complete)
    (hsize : 8 ≤ s'.bufferSize.toNat → 8 ≤ s'.header.size.toNat) : s'.ReadAssert := by
  obtain ⟨-, hnew, hpending⟩ := TSession.receive_eq_some hs
  intro hheader
  have hheader' := (TSession.le_bufferSize_iff s').mp hheader
  have hne : s'.bufferSize.toNat ≠ s'.header.size.toNat := by
    intro heq
    exact hcomplete ⟨hheader, UInt32.toNat_inj.mp heq⟩
  have hsum := TSession.bufferSize_add_readsize hassert
  rw [UInt32.lt_iff_toNat_lt]
  split at hsum
  · -- the header has just become complete: exactly eight bytes are there
    have := hsize hheader'
    omega
  · next hge =>
      have hold : 8 ≤ s.bufferSize.toNat :=
        (TSession.le_bufferSize_iff s).mp (UInt32.not_lt.mp hge)
      have hsame : s'.header = s.header := by
        rw [TSession.header_eq hheader', TSession.header_eq hold, hpending]
        exact THeader.ofBytes_append bytes (by rwa [TSession.pending_length])
      rw [hsame] at hne ⊢
      omega

theorem maxMessageSize_of_exec {handler : List Str → Bool} {s : TSession} {c : Connection}
    {frags : List Str} (hrun : exec (onRead handler) (start s) frags = some c) :
    c.session.maxMessageSize = s.maxMessageSize := by
  refine exec_invariant (I := fun c => c.session.maxMessageSize = s.maxMessageSize)
    ?_ rfl hrun
  intro c bytes c' hc h
  obtain ⟨-, -, -, t, ht, hcase⟩ := onRead_cases h
  have hmax := (TSession.receive_eq_some ht).1.trans hc
  rcases hcase with ⟨-, rfl⟩ | ⟨-, d, -, ⟨-, rfl⟩ | ⟨-, rfl⟩⟩ <;> exact hmax

theorem readAssert_of_wellSized {handler : List Str → Bool} {s : TSession}
    {stream : Str} (hs : s.pending = []) (hsized : WellSized handler s.maxMessageSize stream)
    {frags : List Str} {c : Connection} (hfrags : frags.flatten <+: stream)
    (hrun : exec (onRead handler) (start s) frags = some c) :
    c.reading = true → c.session.ReadAssert := by
  revert hfrags
  refine exec_history
    (I := fun t c => t.flatten <+: stream →
      c.Consumed t.flatten ∧ c.Answered handler ∧ (c.reading = true → c.session.ReadAssert))
    ?_ ?_ hrun |> fun h hfrags => (h hfrags).2.2
  · have hstart := consumed_start s
    rw [hs] at hstart
    refine fun _ => ⟨hstart, answered_start handler s, fun _ => ?_⟩
    rw [TSession.readAssert_iff]
    show frameFormat.Incomplete s.pending
    rw [hs]
    exact frameFormat.incomplete_nil
  · intro t c bytes c' ih hstep hprefix
    rw [List.flatten_append, List.flatten_singleton] at hprefix
    obtain ⟨hc, hans, hassert⟩ := ih ((List.prefix_append ..).trans hprefix)
    have hc' := consumed_onRead hc hstep
    have hans' := answered_onRead hans hstep
    rw [List.flatten_append, List.flatten_singleton]
    refine ⟨hc', hans', fun hreading' => ?_⟩
    obtain ⟨hreading, -, hlen, s', hs', hcase⟩ := onRead_cases hstep
    rcases hcase with ⟨hcomplete, rfl⟩ | ⟨-, d, -, ⟨-, rfl⟩ | ⟨-, rfl⟩⟩
    · exact readAssert_receive (hassert hreading) hlen hs' hcomplete fun hheader =>
        (size_pending_bounds hsized hprefix hc' hans' rfl hheader).1
    · intro hheader
      rw [TSession.bufferSize_clear] at hheader
      exact absurd hheader (by decide)
    · cases hreading'

theorem readsInside_of_wellSized {handler : List Str → Bool} {s : TSession} {stream : Str}
    (hs : s.pending = []) (hmax : 8 ≤ s.maxMessageSize.toNat)
    (hsized : WellSized handler s.maxMessageSize stream) {frags : List Str} {c : Connection}
    (hfrags : frags.flatten <+: stream)
    (hrun : exec (onRead handler) (start s) frags = some c) : c.ReadsInside := by
  have hassert := readAssert_of_wellSized hs hsized hfrags hrun
  have hc : c.Consumed frags.flatten := by
    have hc := consumed_of_exec hrun
    rwa [hs] at hc
  refine ⟨hassert, fun h => TSession.readsize_pos (hassert h),
    fun h => TSession.bufferSize_add_readsize (hassert h), fun h => ?_,
    contentInside_of_consumed hc⟩
  rw [TSession.bufferSize_add_readsize (hassert h), maxMessageSize_of_exec hrun]
  split
  · exact hmax
  · next hge =>
      have hheader := (TSession.le_bufferSize_iff _).mp (UInt32.not_lt.mp hge)
      exact (size_pending_bounds hsized hfrags hc (answered_of_exec hrun) h hheader).2

/-! ### Feeding a stream byte by byte -/

/-- Unless the handler rejects a frame on the way, a session that stays inside
its buffer can be given any prefix of the stream. -/
theorem feed {handler : List Str → Bool} {s : TSession} {stream : Str}
    (hinside : ∀ frags c, frags.flatten <+: stream →
      exec (onRead handler) (start s) frags = some c → c.ReadsInside) {l : Str}
    (hl : l <+: stream) :
    ∃ frags c, frags.flatten <+: l ∧ exec (onRead handler) (start s) frags = some c ∧
      ((frags.flatten = l ∧ c.reading = true) ∨ c.reading = false) := by
  induction l using List.reverseRecOn with
  | nil => exact ⟨[], start s, List.prefix_refl _, rfl, Or.inl ⟨rfl, rfl⟩⟩
  | append_singleton l b ih =>
      have hl' : l <+: stream := (List.prefix_append ..).trans hl
      obtain ⟨frags, c, hfrags, hrun, ⟨hflat, hreading⟩ | hstopped⟩ := ih hl'
      · have hc := hinside frags c (hfrags.trans hl') hrun
        obtain ⟨c', hc'⟩ : ∃ c', c.onRead handler [b] = some c' :=
          hc.accepts hreading (List.cons_ne_nil b []) (hc.readsize_pos hreading)
        have hflat' : (frags ++ [[b]]).flatten = l ++ [b] := by
          rw [List.flatten_append, List.flatten_singleton, hflat]
        refine ⟨frags ++ [[b]], c', hflat' ▸ List.prefix_refl _,
          exec_concat_eq_some.mpr ⟨c, hrun, hc'⟩, ?_⟩
        cases hreading' : c'.reading with
        | true => exact Or.inl ⟨hflat', rfl⟩
        | false => exact Or.inr rfl
      · exact ⟨frags, c, hfrags.trans (List.prefix_append ..), hrun, Or.inr hstopped⟩

/-- A frame that begins with the eight bytes `q` of a header and has no more
than these is `q`. -/
theorem size_of_header_frame {q : Str} {ks : List Str} {rest : Str} (hne : ks ≠ [])
    (hframes : ∀ k ∈ ks, frameFormat.IsFrame k) (hq : q.length = 8)
    (h : q = ks.flatten ++ rest) : (THeader.ofBytes q).size.toNat = 8 := by
  cases ks with
  | nil => exact absurd rfl hne
  | cons k ks =>
      have hk : frameFormat.IsFrame k := hframes k (by simp)
      have hlen : 8 ≤ k.length := hk.1
      rw [List.flatten_cons, List.append_assoc] at h
      have hsize : (THeader.ofBytes k).size.toNat = k.length := hk.2
      have htotal := congrArg List.length h
      rw [List.length_append, hq] at htotal
      rw [h, THeader.ofBytes_append _ hlen, hsize]
      omega

theorem wellSized_of_readsInside {handler : List Str → Bool} {max : UInt32} {stream : Str}
    (hinside : ∀ frags c, frags.flatten <+: stream →
      exec (onRead handler) (start (.make max)) frags = some c → c.ReadsInside) :
    8 ≤ max.toNat ∧ WellSized handler max stream := by
  have hmax : 8 ≤ max.toNat := by
    have hstart := hinside [] _ (List.nil_prefix ..) rfl
    have hempty : (start (TSession.make max)).session.bufferSize < 8 :=
      show (0 : UInt32) < 8 by decide
    have hle := hstart.readsize_le rfl
    rwa [hstart.readsize_exact rfl, if_pos hempty] at hle
  refine ⟨hmax, fun fs r hstream hframes haccept hr => ?_⟩
  have hq : (r.take 8).length = 8 := by
    rw [List.length_take]
    omega
  have hheader : THeader.ofBytes (r.take 8) = THeader.ofBytes r :=
    THeader.ofBytes_take le_rfl hr
  have hprefix : fs.flatten ++ r.take 8 <+: stream := by
    rw [← hstream]
    exact (List.prefix_append_right_inj _).mpr (List.take_prefix 8 r)
  -- a frame of eight bytes has announced an admissible size
  have hexact {ks : List Str} {rest : Str} (hne : ks ≠ [])
      (hks : ∀ k ∈ ks, frameFormat.IsFrame k) (h : r.take 8 = ks.flatten ++ rest) :
      8 ≤ (THeader.ofBytes r).size.toNat ∧ (THeader.ofBytes r).size.toNat ≤ max.toNat := by
    rw [← hheader, size_of_header_frame hne hks hq h]
    exact ⟨le_rfl, hmax⟩
  obtain ⟨frags, c, hfrags, hrun, hcase⟩ := feed hinside hprefix
  have hc := consumed_of_exec hrun
  rw [TSession.pending_make, List.nil_append] at hc
  have hsafe := hinside frags c (hfrags.trans hprefix) hrun
  rcases hcase with ⟨hflat, hreading⟩ | hstopped
  · have hdec := hc.decomposes hreading (hsafe.readAssert hreading)
    rcases frames_cancel hframes hc.isFrame (hflat.symm.trans hdec.flatten.symm) with
      ⟨ks, hks, hrest⟩ | ⟨ks, hne, hks, hrest⟩
    · by_cases hnil : ks = []
      · -- the session has read the header and nothing else of this frame
        rw [hnil, List.flatten_nil, List.nil_append] at hrest
        have hsize : c.session.bufferSize.toNat = 8 := by
          rw [← TSession.pending_length, ← hrest, hq]
        have hsame : c.session.header = THeader.ofBytes r := by
          rw [TSession.header_eq (by omega), ← hrest, hheader]
        have hle : 8 ≤ c.session.bufferSize := (TSession.le_bufferSize_iff _).mpr (by omega)
        have hassert := UInt32.lt_iff_toNat_lt.mp (hsafe.readAssert hreading hle)
        have hexactSize := hsafe.readsize_exact hreading
        have hbound := hsafe.readsize_le hreading
        rw [if_neg (UInt32.not_lt.mpr hle)] at hexactSize
        rw [hexactSize, maxMessageSize_of_exec hrun] at hbound
        rw [← hsame]
        exact ⟨by omega, hbound⟩
      · refine hexact hnil (fun k hk => hc.isFrame k ?_) hrest
        rw [hks]
        exact List.mem_append_right _ hk
    · refine absurd (hdec.rest.eq_nil (fun k hk => hframes k ?_) hrest) hne
      rw [hks]
      exact List.mem_append_right _ hk
  · obtain ⟨hne, hrejected⟩ := (answered_of_exec hrun).rejected hstopped
    -- an accepted run of frames cannot end with the rejected one
    have hnot (hpre : c.frames <+: fs) : False := by
      rw [haccept c.frames hpre hne] at hrejected
      cases hrejected
    obtain ⟨rest, hrest⟩ := hfrags
    have hflat : c.frames.flatten = frags.flatten := by
      have hstream := hc.stream
      rw [unfinished, hstopped] at hstream
      simpa using hstream
    rw [← hflat] at hrest
    rcases frames_cancel hframes hc.isFrame hrest.symm with
      ⟨ks, hks, hq'⟩ | ⟨ks, -, hks, -⟩
    · by_cases hnil : ks = []
      · exact (hnot ⟨[], by rw [hks, hnil, List.append_nil, List.append_nil]⟩).elim
      · refine hexact hnil (fun k hk => hc.isFrame k ?_) hq'
        rw [hks]
        exact List.mem_append_right _ hk
    · exact (hnot ⟨ks, hks.symm⟩).elim

/-- A session stays inside its buffer, however the stream of its peer is cut,
exactly when the buffer holds a header and every header the session gets to
see announces a size between eight and the length of the buffer. -/
theorem readsInside_iff (handler : List Str → Bool) (max : UInt32) (stream : Str) :
    (∀ frags c, frags.flatten <+: stream →
        exec (onRead handler) (start (.make max)) frags = some c → c.ReadsInside) ↔
      8 ≤ max.toNat ∧ WellSized handler max stream := by
  constructor
  · exact wellSized_of_readsInside
  · rintro ⟨hmax, hsized⟩ frags c hfrags hrun
    exact readsInside_of_wellSized (TSession.pending_make max) hmax hsized hfrags hrun

/-- A peer that announces no bytes at all makes the assertion fail. -/
def emptyAnnouncement : Str := [0, 0, 0x11, 0, 0, 0, 0, 0]

/-- A peer that announces four gigabytes has them read behind the buffer. -/
def hugeAnnouncement : Str := [0, 0, 0x11, 0, 0xff, 0xff, 0xff, 0xff]

theorem announcements_leave_buffer :
    (¬∀ frags c, frags.flatten <+: emptyAnnouncement →
        exec (onRead fun _ => true) (start (.make TSession.DEFAULT_MAX_MESSAGE_SIZE)) frags =
          some c → c.ReadsInside) ∧
      ¬∀ frags c, frags.flatten <+: hugeAnnouncement →
        exec (onRead fun _ => true) (start (.make TSession.DEFAULT_MAX_MESSAGE_SIZE)) frags =
          some c → c.ReadsInside := by
  have hsize {stream : Str}
      (h : WellSized (fun _ => true) TSession.DEFAULT_MAX_MESSAGE_SIZE stream)
      (hlen : 8 ≤ stream.length) := h [] stream rfl (by simp) (fun _ _ _ => rfl) hlen
  constructor
  · intro h
    have hbounds := hsize (wellSized_of_readsInside h).2 (by decide)
    exact absurd hbounds.1 (by decide)
  · intro h
    have hbounds := hsize (wellSized_of_readsInside h).2 (by decide)
    exact absurd hbounds.2 (by decide)

end Connection

end GJServer.Net
