import Intake.Record.Fault
import Intake.Request.Endpoint

/-!
# Events

What the decoders report while they work, besides their answers. Every function that has something
to report returns its events in order.
-/

namespace Intake

inductive Event where
  | decodedAccount (id consumed : Nat)
  /-- The input ends inside the record that starts at `offset`. -/
  | cutAccount (offset : Nat)
  /-- The record that starts at `offset` has a fault and is stepped over. -/
  | skippedAccount (offset : Nat) (fault : Record.Fault)
  | decodedRequest (endpoint : Option Request.Endpoint) (consumed : Nat)
  /-- A query pair whose key means nothing to the endpoint. -/
  | unknownParameter (key : Bytes)
  | rejectedRequest (reason : Request.Rejection) (method : Option Request.Method)
deriving DecidableEq

namespace Event

inductive Level where
  | trace
  | debug
deriving DecidableEq

def Level.name : Level → String
  | trace => "TRACE"
  | debug => "DEBUG"

def level : Event → Level
  | decodedAccount .. | decodedRequest .. | unknownParameter .. => .trace
  | cutAccount .. | skippedAccount .. | rejectedRequest .. => .debug

def message : Event → String
  | decodedAccount .. => "decoded account"
  | cutAccount .. => "account data ends inside a record"
  | skippedAccount .. => "skipping malformed account"
  | decodedRequest .. => "decoded request"
  | unknownParameter .. => "skipping unknown parameter"
  | rejectedRequest .. => "invalid request"

/-- The value of one field of a report. -/
inductive Value where
  | number (n : Nat)
  | text (s : String)
deriving DecidableEq

/-- The fields of a report by name. A key is shown as text whatever its bytes are. -/
def fields : Event → List (String × Value)
  | decodedAccount id consumed => [("id", .number id), ("consumed", .number consumed)]
  | cutAccount offset => [("offset", .number offset)]
  | skippedAccount offset fault => [("offset", .number offset), ("err", .text fault.message)]
  | decodedRequest endpoint consumed =>
    [("kind", .text (Request.Endpoint.label endpoint)), ("consumed", .number consumed)]
  | unknownParameter key => [("key", .text (String.ofList (Utf8.decodeLossy key)))]
  | rejectedRequest reason method =>
    [("reason", .text reason.message), ("method", .text (Request.Method.label method))]

end Event

end Intake
