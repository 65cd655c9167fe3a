import Intake.Request

/-!
# Query strings

A query is a row of pairs with ampersands between them. The pairs fill the parameters of a request
one after the other; a key that the endpoint does not know is passed over, and a value that its key
refuses turns the whole request away.
-/

namespace Intake.Request

/-- How the reading of a request line ended. -/
inductive Verdict where
  | accepted
  | rejected (reason : Rejection)
  | overflow (overflow : Overflow)
deriving DecidableEq

/-- A request line that was read, and the unknown keys of its query. -/
structure Outcome where
  verdict : Verdict
  request : Request
  unknown : List Bytes := []

/-- A request that is turned away. -/
def reject (reason : Rejection) (r : Request) : Outcome := ⟨.rejected reason, r.turnAway, []⟩

/-- The key and the value of a pair. A pair without an equals sign has an empty value. -/
def pair (bs : Bytes) : Bytes × Bytes := (bs.cut [Byte.equals]).getD (bs, [])

/-- The pairs of a query without the empty ones. -/
def pairs (query : Bytes) : List (Bytes × Bytes) :=
  ((query.splitOn Byte.ampersand).filter (· ≠ [])).map pair

/-- The key of the number that a caller gives to its query. -/
def queryIdKey : Bytes := Utf8.ofString "query_id"

/-- Reads the pairs of a query into a request. -/
def readPairs (r : Request) : List (Bytes × Bytes) → Outcome
  | [] => ⟨.accepted, r, []⟩
  | (key, raw) :: rest =>
    if key = queryIdKey then
      match Decimal.unsigned? raw with
      | some id => readPairs { r with queryId := some id } rest
      | none => reject .malformedQueryId r
    else
      match r.params.read? key raw r.arena with
      | none =>
        let outcome := readPairs r rest
        { outcome with unknown := key :: outcome.unknown }
      | some (.accepted params arena) => readPairs { r with params, arena } rest
      | some .malformed => reject .malformedParameter r
      | some (.overflow o arena) => ⟨.overflow o, { r with arena }, []⟩

end Intake.Request
