import Intake.Request.Endpoint
import Intake.Request.Filter
import Intake.Request.Selection

/-!
# The parameters of a request

Which of the two tables holds depends on the endpoint, and an endpoint with a body has none.
-/

namespace Intake.Request

inductive Params where
  | none
  | filter (values : Values filterTable)
  | selection (values : Values selectionTable)

namespace Params

def ofEndpoint : Endpoint → Params
  | .filter => filter {}
  | .group | .recommend | .suggest => selection {}
  | .create | .update | .likes => none

def mask : Params → Nat
  | none => 0
  | filter values => values.mask
  | selection values => values.mask

/-- Whether all bits of `mask` that stand for a key are set, if there are parameters. -/
def has? (p : Params) (mask : Nat) : Option Bool :=
  match p with
  | none => Option.none
  | filter values => some (values.has mask)
  | selection values => some (values.has mask)

/-- Reads the value of the key that `name` names, if there is one. -/
def read? (p : Params) (name raw : Bytes) (arena : Arena) : Option (Reading Params) :=
  match p with
  | none => Option.none
  | filter values => (filterTable.key? name).map fun key => (values.read key raw arena).map filter
  | selection values =>
    (selectionTable.key? name).map fun key => (values.read key raw arena).map selection

end Params

end Intake.Request
