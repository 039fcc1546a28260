import GJServer.Client.CommandFile
import GJServer.System.Exchange

/-!
One line of a command file on the whole way to the store and back: `Parse`,
`ProcessCommand`, the handler of the server, and the handler of the client. Both
handlers see their message in a buffer that still holds something behind it.
-/

namespace GJServer.System

open Library Net KVStorage Client Server

/-- The store behind the handler of the server, the result that the promise is
given, and how `ProcessCommand` ends. -/
structure Outcome where
  storage : TKVStorage
  result : Result
  conclusion : Conclusion

/-- `stale` and `stale'` lie behind the messages in the buffers of the server and of
the client. -/
def processLine (storage : TKVStorage) (line stale stale' : Str) : Option Outcome :=
  match TCommandPair.parse line with
  | .error _ => none
  | .ok command =>
      (request command).bind fun message =>
        let resolved := Server.resolveHandler storage (message ++ stale)
        match resolved.written with
        | [response] =>
            let result := (Client.resolveHandler (response ++ stale')).result
            some ⟨resolved.storage, result, conclude command result⟩
        | _ => none

/-- `args` is `key` and `value` around its first delimiter, or `key` alone. -/
def IsSplit (args key value : Str) : Prop :=
  KV_DELIMITER ∉ key ∧
    (args = key ++ KV_DELIMITER :: value ∨ args = key ∧ value = [])

theorem IsSplit.splitKeyValue_eq {args key value : Str} (h : IsSplit args key value) :
    splitKeyValue args = (key, value) := by
  obtain ⟨hkey, rfl | ⟨rfl, rfl⟩⟩ := h
  · rw [KVStorage.splitKeyValue_eq, Delimited.before_append_sep hkey,
      Delimited.after_append_sep hkey]
  · rw [KVStorage.splitKeyValue_eq, Delimited.before_of_not_mem hkey,
      Delimited.after_of_not_mem hkey]

theorem IsSplit.setContent_eq {args key value : Str} (h : IsSplit args key value) :
    setContent args = key ++ KV_DELIMITER :: value := by
  rw [setContent, h.splitKeyValue_eq, List.append_assoc, List.singleton_append]

theorem processLine_set {storage : TKVStorage} {args key value : Str}
    (hsplit : IsSplit args key value)
    (hsmall : Message.Small ⟨ECMD.WRITE_REQUEST, key ++ KV_DELIMITER :: value⟩)
    (stale stale' : Str) :
    processLine storage (SET ++ KV_DELIMITER :: args) stale stale' =
      some ⟨storage.set key value, (.EOK, []),
        { returned := .ok true, fatal := [], printed := none }⟩ := by
  rw [← hsplit.setContent_eq] at hsmall
  have hresolved := @resolveHandler_set storage args hsmall
  have hwrite : Message.Fits ⟨ECMD.WRITE_RESPONSE, []⟩ := by decide
  rw [hsplit.splitKeyValue_eq] at hresolved
  rw [processLine, TCommandPair.parse_set]
  simp only [request_set, Option.bind_some,
    Server.resolveHandler_append stale (Message.isFrame hsmall.fits), hresolved]
  rw [writeResponse_eq, Client.resolveHandler_append stale' (Message.isFrame hwrite),
    ← writeResponse_eq, resolveHandler_writeResponse]
  rfl

theorem processLine_get {storage : TKVStorage} {key : Str}
    (hkey : Message.Small ⟨ECMD.READ_REQUEST, key⟩)
    (hvalue : Message.Small ⟨ECMD.READ_RESPONSE, (storage.get key).getD []⟩)
    (stale stale' : Str) :
    processLine storage (GET ++ KV_DELIMITER :: key) stale stale' =
      some ⟨storage, (.EOK, (storage.get key).getD []),
        { returned := .ok true, fatal := []
          printed := some (key, (storage.get key).getD []) }⟩ := by
  rw [processLine, TCommandPair.parse_get]
  simp only [request_get, Option.bind_some,
    Server.resolveHandler_append stale (Message.isFrame hkey.fits), resolveHandler_get hkey]
  rw [readResponse_eq, Client.resolveHandler_append stale' (Message.isFrame hvalue.fits),
    ← readResponse_eq, resolveHandler_readResponse hvalue]
  rfl

/-- A `set` line stores what is behind the first delimiter of its arguments under
what is before it and touches nothing else, and as long as this entry stays a `get`
line with that key is answered with it. -/
theorem set_then_get (storage : TKVStorage) (args key value stale stale' : Str)
    (hsplit : IsSplit args key value)
    (hsmall : Message.Small ⟨ECMD.WRITE_REQUEST, key ++ KV_DELIMITER :: value⟩) :
    ∃ outcome, processLine storage (SET ++ KV_DELIMITER :: args) stale stale' = some outcome ∧
      outcome.conclusion.returned = .ok true ∧
      outcome.storage.map.lookup key = some value ∧
      (∀ other ≠ key, outcome.storage.map.lookup other = storage.map.lookup other) ∧
      ∀ later : TKVStorage, later.map.lookup key = some value → ∀ stale stale',
        processLine later (GET ++ KV_DELIMITER :: key) stale stale' =
          some ⟨later, (.EOK, value),
            { returned := .ok true, fatal := [], printed := some (key, value) }⟩ := by
  have hlen : (key ++ KV_DELIMITER :: value).length ≤ 4088 := hsmall
  rw [List.length_append, List.length_cons] at hlen
  refine ⟨_, processLine_set hsplit hsmall stale stale', rfl, Finmap.lookup_insert _, ?_, ?_⟩
  · intro other hother
    exact Finmap.lookup_insert_of_ne _ hother
  · intro later hlater stale stale'
    have hget : later.get key = some value := hlater
    have hkey : Message.Small ⟨ECMD.READ_REQUEST, key⟩ := by
      show key.length ≤ 4088
      omega
    have hvalue : Message.Small ⟨ECMD.READ_RESPONSE, (later.get key).getD []⟩ := by
      rw [hget]
      show value.length ≤ 4088
      omega
    rw [processLine_get hkey hvalue, hget]
    rfl

theorem set_then_get_spaces :
    ∃ outcome, processLine .make (SET ++ KV_DELIMITER :: [32, 97, 32]) [] [] = some outcome ∧
      outcome.conclusion.returned = .ok true ∧
      outcome.storage.map.lookup [] = some [97, 32] ∧
      (∀ other ≠ [], outcome.storage.map.lookup other = TKVStorage.make.map.lookup other) ∧
      ∀ later : TKVStorage, later.map.lookup [] = some [97, 32] → ∀ stale stale',
        processLine later (GET ++ KV_DELIMITER :: []) stale stale' =
          some ⟨later, (.EOK, [97, 32]),
            { returned := .ok true, fatal := [], printed := some ([], [97, 32]) }⟩ :=
  set_then_get .make [32, 97, 32] [] [97, 32] [] [] ⟨List.not_mem_nil, Or.inl rfl⟩ (by decide)

end GJServer.System
