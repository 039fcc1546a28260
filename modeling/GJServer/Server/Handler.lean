import GJServer.KVStorage.Storage

/-!
What the server does with a message (`TGJServer::ResolveHandler` of
`server/gjserver.cpp`).
-/

namespace GJServer.Server

open Library Net KVStorage

/-- The answer, the store, the messages passed to `session->Write` and the
messages logged as errors. -/
structure Resolved where
  answer : Bool
  storage : TKVStorage
  written : List Str
  errors : List String
  deriving DecidableEq

def readResponse (value : Str) : Str :=
  THeader.makeCommand ECMD.READ_RESPONSE value (.ofNat value.length)

def writeResponse : Str := THeader.makeCommand ECMD.WRITE_RESPONSE [] 0

/-- `ResolveHandler` on the message at the start of the memory `request`. -/
def resolveHandler (storage : TKVStorage) (request : Str) : Resolved :=
  let header := THeader.ofBytes request
  if !header.verifyRequest then
    { answer := false, storage := storage, written := []
      errors := ["Recieved invalid cmd code: " ++ toString header.cmd.toNat] }
  else if header.cmd = ECMD.READ_REQUEST then
    let key := THeader.contentView request
    -- a key that is not there leaves the empty string in `value`
    let value := (storage.get key).getD []
    { answer := true, storage := storage, written := [readResponse value], errors := [] }
  else if header.cmd = ECMD.WRITE_REQUEST then
    let pair := splitKeyValue (THeader.contentView request)
    { answer := true, storage := storage.set pair.1 pair.2, written := [writeResponse]
      errors := [] }
  else
    { answer := true, storage := storage, written := [], errors := [] }

/-- What lies behind the message in the buffer makes no difference. -/
theorem resolveHandler_append {storage : TKVStorage} {message : Str} (stale : Str)
    (h : frameFormat.IsFrame message) :
    resolveHandler storage (message ++ stale) = resolveHandler storage message := by
  simp only [resolveHandler, THeader.ofBytes_append stale h.1, THeader.contentView_append stale h]

/-- The store after a sequence of messages. -/
def resolveAll (storage : TKVStorage) (requests : List Str) : TKVStorage :=
  requests.foldl (fun storage request => (resolveHandler storage request).storage) storage

/-- A whole frame with a write request of the version the server speaks. -/
structure IsWriteRequest (request : Str) : Prop where
  isFrame : frameFormat.IsFrame request
  version : (THeader.ofBytes request).version = 0
  cmd : (THeader.ofBytes request).cmd = ECMD.WRITE_REQUEST

/-- Key and value of a write request. -/
def requestPair (request : Str) : Str × Str := splitKeyValue (THeader.contentView request)

theorem resolveHandler_write {storage : TKVStorage} {request : Str}
    (h : IsWriteRequest request) :
    resolveHandler storage request =
      { answer := true
        storage := storage.set (requestPair request).1 (requestPair request).2
        written := [writeResponse]
        errors := [] } := by
  have hverify : (THeader.ofBytes request).verifyRequest = true := by
    rw [THeader.verifyRequest, THeader.verifyVersion, h.version, h.cmd]
    rfl
  rw [resolveHandler, hverify, h.cmd]
  rfl

theorem map_resolveAll {storage : TKVStorage} {requests : List Str}
    (h : ∀ request ∈ requests, IsWriteRequest request) :
    (resolveAll storage requests).map = applySets storage.map (requests.map requestPair) := by
  induction requests generalizing storage with
  | nil => rfl
  | cons request requests ih =>
      show (resolveAll (resolveHandler storage request).storage requests).map = _
      rw [resolveHandler_write (h request (by simp)),
        ih fun r hr => h r (List.mem_cons_of_mem _ hr)]
      rfl

/-! ### Restarts -/

/-- Storing the map and loading it again gives it back, in whatever order its
entries are written. -/
def RestartSafe (map : TMap) : Prop :=
  ∀ path items, Iterates items map → loadFile path (some (storeText items)) ∅ = .ok map

theorem restartSafe_iff (map : TMap) : RestartSafe map ↔ map.Representable := by
  constructor
  · intro h
    obtain ⟨items, hitems⟩ := Iterates.exists_order map
    exact (loadText_storeText_iff hitems).mp (Except.ok.inj (h "" items hitems))
  · intro h path items hitems
    exact congrArg Except.ok (loadText_storeText hitems h)

/-- A content without a newline is exactly one whose key and value the file can
represent. -/
theorem representable_split_iff (content : Str) :
    Representable (splitKeyValue content).1 (splitKeyValue content).2 ↔ NEWLINE ∉ content := by
  constructor
  · intro h
    rw [splitKeyValue_eq] at h
    by_cases hspace : KV_DELIMITER ∈ content
    · rw [← Delimited.before_append_after hspace, List.mem_append, List.mem_cons]
      rintro (hmem | hmem | hmem)
      · exact h.key_newline hmem
      · cases hmem
      · exact h.value_newline hmem
    · have hkey := h.key_newline
      rwa [Delimited.before_of_not_mem hspace] at hkey
  · exact representable_splitKeyValue

/-- The store a server reaches from any file by any write requests survives a
restart exactly when no write that is the last one of its key has a newline in
its content. -/
theorem resolveAll_restartSafe_iff (file : Str) (requests : List Str)
    (hrequests : ∀ request ∈ requests, IsWriteRequest request) :
    RestartSafe (resolveAll ⟨loadText file ∅, false⟩ requests).map ↔
      ∀ pre request post, requests = pre ++ request :: post →
        (∀ later ∈ post, (requestPair later).1 ≠ (requestPair request).1) →
          NEWLINE ∉ THeader.contentView request := by
  rw [restartSafe_iff, map_resolveAll hrequests]
  constructor
  · rintro h pre request post rfl hlast
    rw [← representable_split_iff]
    apply h
    rw [lookup_applySets, lastSet_eq_some_iff.mpr
      ⟨pre.map requestPair, post.map requestPair, List.map_append, ?_⟩, Option.some_or]
    · rfl
    · intro pair hpair
      obtain ⟨later, hlater, rfl⟩ := List.mem_map.mp hpair
      exact hlast later hlater
  · intro h key value hlookup
    rw [lookup_applySets, Option.or_eq_some_iff] at hlookup
    rcases hlookup with hlookup | ⟨-, hlookup⟩
    · obtain ⟨pre, post, hsplit, hlast⟩ := lastSet_eq_some_iff.mp hlookup
      obtain ⟨pre', rest, rfl, hpre, hrest⟩ := List.map_eq_append_iff.mp hsplit
      obtain ⟨request, post', rfl, hpair, hpost⟩ := List.map_eq_cons_iff.mp hrest
      have hcontent := h pre' request post' rfl fun later hlater => by
        rw [hpair]
        exact hlast _ (hpost ▸ List.mem_map_of_mem hlater)
      have hrep := (representable_split_iff _).mpr hcontent
      rwa [show splitKeyValue (THeader.contentView request) = (key, value) from hpair] at hrep
    · exact representable_loadText file representable_empty key value hlookup

/-- A client of its own making sets `k` to two lines of text. -/
def twoLines : Str := Message.frame ⟨ECMD.WRITE_REQUEST, [107, 32, 97, 10, 98]⟩

theorem isWriteRequest_frame {content : Str} (h : content.length + 8 < 2 ^ 32) :
    IsWriteRequest (Message.frame ⟨ECMD.WRITE_REQUEST, content⟩) := by
  have hheader := Message.ofBytes_frame (m := ⟨ECMD.WRITE_REQUEST, content⟩) h
  exact ⟨Message.isFrame h, by rw [hheader], by rw [hheader]⟩

theorem twoLines_not_restartSafe :
    IsWriteRequest twoLines ∧
      ¬RestartSafe (resolveAll ⟨loadText [] ∅, false⟩ [twoLines]).map := by
  refine ⟨isWriteRequest_frame (by decide), fun h => ?_⟩
  have hvalue : (resolveAll ⟨loadText [] ∅, false⟩ [twoLines]).map.lookup [107] =
      some [97, 10, 98] := by decide
  exact ((restartSafe_iff _).mp h _ _ hvalue).value_newline (by decide)

/-- The two lines of `k` are written over, after another key has been set. -/
def writtenOver : List Str :=
  [twoLines, Message.frame ⟨ECMD.WRITE_REQUEST, [106, 32, 99]⟩,
    Message.frame ⟨ECMD.WRITE_REQUEST, [107, 32, 100]⟩]

theorem restartSafe_writtenOver :
    NEWLINE ∈ THeader.contentView twoLines ∧
      RestartSafe (resolveAll ⟨loadText [] ∅, false⟩ writtenOver).map := by
  have hrequests : ∀ request ∈ writtenOver, IsWriteRequest request := by
    refine List.forall_mem_cons.mpr ⟨isWriteRequest_frame (by decide), ?_⟩
    refine List.forall_mem_cons.mpr ⟨isWriteRequest_frame (by decide), ?_⟩
    exact List.forall_mem_singleton.mpr (isWriteRequest_frame (by decide))
  refine ⟨by decide, (resolveAll_restartSafe_iff [] writtenOver hrequests).mpr ?_⟩
  intro pre request post hsplit hlast
  match pre with
  | [] =>
      -- the last request is one of the same key
      obtain ⟨rfl, rfl⟩ := List.cons.inj hsplit
      exact absurd (by decide) (hlast _ (List.mem_cons_of_mem _ List.mem_cons_self))
  | [_] =>
      obtain ⟨-, hsplit⟩ := List.cons.inj hsplit
      obtain ⟨rfl, -⟩ := List.cons.inj hsplit
      decide
  | [_, _] =>
      obtain ⟨-, hsplit⟩ := List.cons.inj hsplit
      obtain ⟨-, hsplit⟩ := List.cons.inj hsplit
      obtain ⟨rfl, -⟩ := List.cons.inj hsplit
      decide
  | _ :: _ :: _ :: pre =>
      have hlength := congrArg List.length hsplit
      simp only [writtenOver, List.length_append, List.length_cons, List.length_nil] at hlength
      omega

end GJServer.Server
