import Intake.Request.Params

/-!
# Requests

A request describes one request head: the endpoint it asks for, the account in its path, its query
parameters, and the length of its body. Texts lie in the request's own arena.
-/

namespace Intake

structure Request where
  /-- A number for the use of the caller. Decoding keeps it. -/
  requestId : Nat := 0
  /-- The endpoint, unless the request was turned away. -/
  endpoint : Option Request.Endpoint := none
  method : Option Request.Method := none
  /-- The account in the path. -/
  entityId : Option Nat := none
  queryId : Option Nat := none
  contentLength : Nat := 0
  params : Request.Params := .none
  arena : Arena

namespace Request

def new (options : Options) : Request :=
  { arena := .withCapacity options.arenaCapacity }

/-- Forgets everything but the caller's number. -/
def reset (r : Request) : Request :=
  { requestId := r.requestId, arena := r.arena.reset }

/-- What is left of a request that is turned away. -/
def turnAway (r : Request) : Request :=
  { r with endpoint := none, params := .none }

/-- The items of a text with commas between them, without the empty ones. -/
def splitList (r : Request) (span : Span) : List Bytes :=
  ((r.arena.view span).splitOn Byte.comma).filter (· ≠ [])

/-- The body that follows the first `consumed` bytes of `input`, once all of it has arrived. -/
def body? (r : Request) (input : Bytes) (consumed : Nat) : Option Bytes :=
  if consumed + r.contentLength ≤ input.length then
    some ((input.drop consumed).take r.contentLength)
  else none

end Request

end Intake
