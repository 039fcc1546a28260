import GJServer.Library.Exec
import GJServer.Net.Delivery
import GJServer.Server.Handler

/-!
The length of what a server answers, over any number of its lives. A value comes from a
request, which had room in the buffer of a session, or from the storage file. Between the
two the file takes it apart at its newlines, but what is behind the first delimiter of a
line never grows.
-/

namespace GJServer.Server.Restarts

open Library Delimited Exec Net KVStorage

/-- `copied` is the map that `UpdateFile` has copied and not written yet, and `responses`
are all messages that have been passed to `session->Write`. -/
structure State where
  storage : TKVStorage
  copied : Option TMap
  file : Str
  responses : List Str

/-- `stale` lies behind the frame in the buffer of the session. -/
inductive Event
  | dispatch (frame stale : Str)
  | copy
  | store (items : List Item)
  | restart

/-- A server that has loaded the file. -/
def start (file : Str) : State where
  storage := { TKVStorage.make with map := loadText file TKVStorage.make.map }
  copied := none
  file := file
  responses := []

def step (path : String) (s : State) : Event → Option State
  | .dispatch frame stale =>
      let resolved := resolveHandler s.storage (frame ++ stale)
      some { s with
        storage := resolved.storage, responses := s.responses ++ resolved.written }
  | .copy =>
      if s.storage.isMapDirty then some { s with copied := some s.storage.map } else none
  | .store items =>
      match s.copied with
      | some map =>
          if Iterates items map then
            some { s with copied := none, file := storeText items }
          else none
      | none => none
  | .restart =>
      match TKVStorage.make.load path (some s.file) with
      | .ok storage => some { s with storage := storage, copied := none }
      | .error _ => none

/-- A session dispatches whole frames, here of at most the size of its buffer. -/
def Event.Fits : Event → Prop
  | .dispatch frame _ => frameFormat.IsFrame frame ∧
      (THeader.ofBytes frame).size ≤ TSession.DEFAULT_MAX_MESSAGE_SIZE
  | _ => True

/-- An entry whose value fits a response, with the key that `SplitKeyValue` makes. -/
structure EntryFits (key value : Str) : Prop where
  key : KV_DELIMITER ∉ key
  value : Message.Small ⟨ECMD.READ_RESPONSE, value⟩

def MapFits (map : TMap) : Prop := ∀ key value, map.lookup key = some value → EntryFits key value

/-- Whatever entry comes out of the file, its value fits a response. -/
def FileFits (file : Str) : Prop :=
  ∀ line ∈ lines NEWLINE file, Message.Small ⟨ECMD.READ_RESPONSE, after KV_DELIMITER line⟩

/-- What every step preserves. -/
structure Inv (s : State) : Prop where
  map : MapFits s.storage.map
  copied : ∀ map, s.copied = some map → MapFits map
  file : FileFits s.file
  responses : ∀ response ∈ s.responses,
    (THeader.ofBytes response).size ≤ TSession.DEFAULT_MAX_MESSAGE_SIZE

theorem mapFits_loadText {file : Str} (h : FileFits file) : MapFits (loadText file ∅) := by
  intro key value hlookup
  rw [lookup_loadText, Finmap.lookup_empty, Option.none_or] at hlookup
  obtain ⟨line, hline, heq⟩ := List.mem_map.mp (List.of_mem_dlookup hlookup)
  cases heq
  rw [splitKeyValue_eq]
  exact ⟨not_mem_before line, h line hline⟩

/-- However the newlines in keys and values cut the file into lines. -/
theorem fileFits_storeText {items : List Item} (h : ∀ item ∈ items, EntryFits item.1 item.2) :
    FileFits (storeText items) := by
  induction items with
  | nil => simp [FileFits, storeText, lines]
  | cons item items ih =>
      obtain ⟨hitem, hitems⟩ := List.forall_mem_cons.mp h
      have htext : storeText (item :: items) =
          (item.1 ++ KV_DELIMITER :: item.2) ++ NEWLINE :: storeText items := by
        simp [storeText]
      intro line hline
      rw [htext] at hline
      rcases mem_lines_append_sep hline with hinfix | hline
      · have hle : (after KV_DELIMITER line).length ≤ item.2.length := by
          rw [← after_append_sep hitem.key item.2]
          exact length_after_le hinfix
        exact hle.trans hitem.value
      · exact ih hitems line hline

theorem mapFits_insert {map : TMap} {key value : Str} (hmap : MapFits map)
    (hentry : EntryFits key value) : MapFits (map.insert key value) := by
  intro k v hlookup
  by_cases hk : k = key
  · rw [hk, Finmap.lookup_insert, Option.some.injEq] at hlookup
    exact hk ▸ hlookup ▸ hentry
  · rw [Finmap.lookup_insert_of_ne _ hk] at hlookup
    exact hmap k v hlookup

/-- Nothing that was read whole is longer than a content can be. -/
theorem entryFits_splitKeyValue {line : Str} (h : Message.Small ⟨ECMD.READ_RESPONSE, line⟩) :
    EntryFits (splitKeyValue line).1 (splitKeyValue line).2 := by
  rw [splitKeyValue_eq]
  have hsuffix : after KV_DELIMITER line <:+ line :=
    (List.tail_suffix _).trans (List.dropWhile_suffix _)
  exact ⟨not_mem_before line, hsuffix.length_le.trans h⟩

theorem size_readResponse {value : Str} (h : Message.Small ⟨ECMD.READ_RESPONSE, value⟩) :
    (THeader.ofBytes (readResponse value)).size ≤ TSession.DEFAULT_MAX_MESSAGE_SIZE := by
  have hlen : value.length ≤ 4088 := h
  have hframe := Message.size_frame h.fits
  rw [Message.frame_length h.fits] at hframe
  rw [UInt32.le_iff_toNat_le]
  exact hframe.le.trans (Nat.add_le_add_right hlen 8)

/-- One message keeps the store within bounds and is answered within them. -/
theorem fits_resolveHandler {storage : TKVStorage} {frame : Str}
    (hframe : frameFormat.IsFrame frame)
    (hsize : (THeader.ofBytes frame).size ≤ TSession.DEFAULT_MAX_MESSAGE_SIZE)
    (hmap : MapFits storage.map) :
    MapFits (resolveHandler storage frame).storage.map ∧
      ∀ response ∈ (resolveHandler storage frame).written,
        (THeader.ofBytes response).size ≤ TSession.DEFAULT_MAX_MESSAGE_SIZE := by
  simp only [resolveHandler]
  split
  · exact ⟨hmap, by simp⟩
  split
  · refine ⟨hmap, fun response hresponse => ?_⟩
    obtain rfl := List.mem_singleton.mp hresponse
    apply size_readResponse
    cases hlookup : storage.get (THeader.contentView frame) with
    | some value => exact (hmap _ _ hlookup).value
    | none => exact Nat.zero_le _
  split
  · have hcontent : Message.Small ⟨ECMD.READ_RESPONSE, THeader.contentView frame⟩ := by
      have hlen : (THeader.ofBytes frame).size.toNat = frame.length := hframe.2
      rw [UInt32.le_iff_toNat_le, hlen] at hsize
      rw [THeader.contentView_of_isFrame hframe, Message.Small, List.length_drop]
      exact Nat.sub_le_sub_right hsize 8
    refine ⟨mapFits_insert hmap (entryFits_splitKeyValue hcontent), fun response hresponse => ?_⟩
    obtain rfl := List.mem_singleton.mp hresponse
    decide
  · exact ⟨hmap, by simp⟩

theorem inv_start {file : Str}
    (h : ∀ line ∈ lines NEWLINE file, line.length ≤ TSession.DEFAULT_MAX_MESSAGE_SIZE.toNat - 8) :
    Inv (start file) := by
  have hfile : FileFits file := by
    intro line hline
    have hentry := entryFits_splitKeyValue (h line hline)
    rw [splitKeyValue_eq] at hentry
    exact hentry.value
  exact ⟨mapFits_loadText hfile, by simp [start], hfile, by simp [start]⟩

theorem inv_step {path : String} {s s' : State} {e : Event} (h : Inv s) (he : e.Fits)
    (hstep : step path s e = some s') : Inv s' := by
  cases e with
  | dispatch frame stale =>
      obtain rfl := Option.some.inj hstep
      rw [resolveHandler_append stale he.1]
      obtain ⟨hmap, hwritten⟩ := fits_resolveHandler he.1 he.2 h.map
      refine ⟨hmap, h.copied, h.file, fun response hresponse => ?_⟩
      exact (List.mem_append.mp hresponse).elim (h.responses response) (hwritten response)
  | copy =>
      rw [step, Option.ite_none_right_eq_some, Option.some.injEq] at hstep
      obtain ⟨-, rfl⟩ := hstep
      refine ⟨h.map, fun map hmap => ?_, h.file, h.responses⟩
      exact Option.some.inj hmap ▸ h.map
  | store items =>
      simp only [step] at hstep
      split at hstep
      · next map hcopied =>
          rw [Option.ite_none_right_eq_some, Option.some.injEq] at hstep
          obtain ⟨hitems, rfl⟩ := hstep
          refine ⟨h.map, by simp, fileFits_storeText fun item hitem => ?_, h.responses⟩
          exact h.copied map hcopied _ _ ((hitems.mem_iff item).mp hitem)
      · cases hstep
  | restart =>
      obtain rfl := Option.some.inj hstep
      exact ⟨mapFits_loadText h.file, by simp, h.file, h.responses⟩

/-- From a storage file with lines of at most the length of a content, and as long as no
request is longer than the buffer of a session, no response is longer either. -/
theorem responses_fit (path : String) (file : Str) (events : List Event) (s : State)
    (hfile : ∀ line ∈ lines NEWLINE file,
      line.length ≤ TSession.DEFAULT_MAX_MESSAGE_SIZE.toNat - 8)
    (hevents : ∀ e ∈ events, e.Fits)
    (hrun : exec (step path) (start file) events = some s) :
    ∀ response ∈ s.responses,
      (THeader.ofBytes response).size ≤ TSession.DEFAULT_MAX_MESSAGE_SIZE :=
  (exec_invariant_of_labels (fun _ _ _ => inv_step) (inv_start hfile) hevents hrun).responses

/-- A value with a newline and a space is stored, comes back as two entries, and the
second of them is read. -/
def readBehindNewline : List Event :=
  [.dispatch (Message.frame ⟨ECMD.WRITE_REQUEST, [107, 32, 97, 10, 98, 32, 99]⟩) [],
    .copy, .store [⟨[107], [97, 10, 98, 32, 99]⟩], .restart,
    .dispatch (Message.frame ⟨ECMD.READ_REQUEST, [98]⟩) []]

theorem responses_fit_readBehindNewline :
    ∃ s, exec (step "kvfile.txt") (start []) readBehindNewline = some s ∧
      s.responses = [writeResponse, readResponse [99]] ∧
      ∀ response ∈ s.responses,
        (THeader.ofBytes response).size ≤ TSession.DEFAULT_MAX_MESSAGE_SIZE := by
  have hrun : ∃ s, exec (step "kvfile.txt") (start []) readBehindNewline = some s ∧
      s.responses = [writeResponse, readResponse [99]] := ⟨_, rfl, by decide⟩
  obtain ⟨s, hs, hresponses⟩ := hrun
  refine ⟨s, hs, hresponses, responses_fit "kvfile.txt" [] _ s (by simp [lines]) ?_ hs⟩
  intro e he
  simp only [readBehindNewline, List.mem_cons, List.not_mem_nil, or_false] at he
  rcases he with rfl | rfl | rfl | rfl | rfl
  · exact ⟨Message.isFrame (by decide), by decide⟩
  · trivial
  · trivial
  · trivial
  · exact ⟨Message.isFrame (by decide), by decide⟩

end GJServer.Server.Restarts
