import Intake.Event
import Intake.Request.Path
import Intake.Request.Query

/-!
# Request lines

A request line is a method, a target and a version with single spaces between them. It is read from
left to right, and the first part that is not understood is the reason to turn the request away.
-/

namespace Intake.Request

/-- What every supported version begins with. -/
def protocol : Bytes := Utf8.ofString "HTTP/"

/-- Reads the target of a request whose method is known. -/
def readTarget (r : Request) (target : Bytes) : Outcome :=
  let (path, query) := (target.cut [Byte.questionMark]).getD (target, [])
  match ofPath? path with
  | none => reject .unknownEndpoint r
  | some (endpoint, entityId) =>
    if r.method = some endpoint.method then
      readPairs { r with endpoint := some endpoint, entityId, params := .ofEndpoint endpoint }
        (pairs query)
    else reject .methodNotAllowed r

/-- The method, target and version of a request line. -/
def lineParts? (line : Bytes) : Option (Bytes × Bytes × Bytes) := do
  let (method, rest) ← line.cut [Byte.space]
  let (target, version) ← rest.cut [Byte.space]
  return (method, target, version)

def readLine (r : Request) (line : Bytes) : Outcome :=
  match lineParts? line with
  | none => reject .malformedRequestLine r
  | some (method, target, version) =>
    let r := { r with method := Method.ofToken? method }
    if protocol.isPrefixOf version then readTarget r target else reject .unsupportedProtocol r

/-- What a finished request line has to report. -/
def Outcome.events (o : Outcome) : List Event :=
  o.unknown.map .unknownParameter ++
    match o.verdict with
    | .rejected reason => [.rejectedRequest reason o.request.method]
    | _ => []

end Intake.Request
