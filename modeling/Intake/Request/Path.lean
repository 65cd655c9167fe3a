import Intake.Request.Endpoint
import Intake.Text.Decimal

/-!
# Request paths

The path of a request target names an endpoint, and for some endpoints the account it is about.
-/

namespace Intake.Request

/-- What every path begins with. -/
def pathRoot : Bytes := Utf8.ofString "/accounts/"

def dropSlash (bs : Bytes) : Bytes :=
  if bs.getLast? = some Byte.slash then bs.dropLast else bs

/-- The endpoints that a path names by one word. -/
def collectionEndpoint? (word : Bytes) : Option Endpoint :=
  [("filter", Endpoint.filter), ("group", .group), ("new", .create), ("likes", .likes)].findSome?
    fun (name, endpoint) => if Utf8.ofString name = word then some endpoint else none

/-- The endpoints that a path names by a word after the account. -/
def accountEndpoint? (word : Bytes) : Option Endpoint :=
  [("recommend", Endpoint.recommend), ("suggest", .suggest)].findSome?
    fun (name, endpoint) => if Utf8.ofString name = word then some endpoint else none

/-- The endpoint of the segments of a path after its root, and the account it is about. -/
def ofSegments? : List Bytes → Option (Endpoint × Option Nat)
  | [segment] =>
    match collectionEndpoint? segment with
    | some endpoint => some (endpoint, none)
    | none => (Decimal.unsigned? segment).map fun id => (.update, some id)
  | [account, word] => do
    let endpoint ← accountEndpoint? word
    let id ← Decimal.unsigned? account
    return (endpoint, some id)
  | _ => none

/-- The endpoint of a path, and the account it is about. -/
def ofPath? (path : Bytes) : Option (Endpoint × Option Nat) :=
  if pathRoot.isPrefixOf path then
    ofSegments? ((dropSlash (path.drop pathRoot.length)).splitOn Byte.slash)
  else none

end Intake.Request
