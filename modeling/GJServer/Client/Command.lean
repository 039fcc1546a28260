import GJServer.KVStorage.StorageFile

/-!
A command on the side of the client (`client/gjclient.cpp`): the request that
`ProcessCommand` sends for it, what `ResolveHandler` makes of an answer, and what
`ProcessCommand` makes of the result that reaches it through the promise.
-/

namespace GJServer.Client

open Library Net KVStorage

structure TCommandPair where
  cmd : ECMD
  args : Str
  deriving DecidableEq

inductive TClientError
  | EOK
  | EUNEXP
  | EDISCON_SUCCESS
  | EDISCON_FAILED
  deriving DecidableEq

/-- The value type of `m_promise`. -/
abbrev Result := TClientError × Str

/-- `RequestRead`: the message it writes. -/
def requestRead (key : Str) : Str :=
  THeader.makeCommand ECMD.READ_REQUEST key (.ofNat key.length)

def requestWrite (key value : Str) : Str :=
  let content := key ++ [KV_DELIMITER] ++ value
  THeader.makeCommand ECMD.WRITE_REQUEST content (.ofNat content.length)

/-- The message `ProcessCommand` writes. For any other code the text of the error
report throws before anything is written or reported. -/
def request (command : TCommandPair) : Option Str :=
  if command.cmd = ECMD.READ_REQUEST then some (requestRead command.args)
  else if command.cmd = ECMD.WRITE_REQUEST then
    let pair := splitKeyValue command.args
    some (requestWrite pair.1 pair.2)
  else none

/-- The answer to the session, the value the promise is given, and the messages
logged as errors. -/
structure Resolved where
  answer : Bool
  result : Result
  errors : List String
  deriving DecidableEq

/-- `ResolveHandler` on the message at the start of the memory `message`. -/
def resolveHandler (message : Str) : Resolved :=
  let header := THeader.ofBytes message
  if !header.verifyResponse then
    { answer := false, result := (.EUNEXP, [])
      errors := ["Recieved invalid cmd code: " ++ toString header.cmd.toNat] }
  else
    let value := if header.cmd = ECMD.READ_RESPONSE then THeader.contentView message else []
    { answer := true, result := (.EOK, value), errors := [] }

/-- What lies behind the message in the buffer makes no difference. -/
theorem resolveHandler_append {message : Str} (stale : Str) (h : frameFormat.IsFrame message) :
    resolveHandler (message ++ stale) = resolveHandler message := by
  simp only [resolveHandler, THeader.ofBytes_append stale h.1, THeader.contentView_append stale h]

/-- How `ProcessCommand` ends: the value it returns or the text of what it
throws, what it logs as fatal, and the key and value it prints. -/
structure Conclusion where
  returned : Except String Bool
  fatal : List String
  printed : Option (Str × Str)

/-- `ProcessCommand` once the future is ready. -/
def conclude (command : TCommandPair) : Result → Conclusion
  | (.EOK, value) =>
      { returned := .ok true, fatal := []
        printed := if command.cmd = ECMD.READ_REQUEST then some (command.args, value) else none }
  | (.EDISCON_SUCCESS, _) => { returned := .ok false, fatal := [], printed := none }
  | (.EDISCON_FAILED, _) =>
      { returned := .error "connection lost", fatal := ["Connection totally lost"]
        printed := none }
  | (.EUNEXP, _) =>
      { returned := .error "unexpected", fatal := ["Unexpected fatal"], printed := none }

end GJServer.Client
