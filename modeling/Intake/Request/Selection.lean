import Intake.Request.Table

/-!
# Selection parameters

The parameters that the group, recommend and suggest endpoints share. Each key sets a field of its
own.
-/

namespace Intake.Request

inductive SelectionKey where
  | sex
  | status
  | country
  | city
  | birth
  | interests
  | likes
  | joined
  | keys
  | order
  | limit
deriving DecidableEq

namespace SelectionKey

def all : List SelectionKey :=
  [sex, status, country, city, birth, interests, likes, joined, keys, order, limit]

def name : SelectionKey → String
  | sex => "sex"
  | status => "status"
  | country => "country"
  | city => "city"
  | birth => "birth"
  | interests => "interests"
  | likes => "likes"
  | joined => "joined"
  | keys => "keys"
  | order => "order"
  | limit => "limit"

def kind : SelectionKey → ParameterKind
  | sex => .sex
  | status => .status
  | country | city | interests => .text
  | birth | joined => .signed
  | likes => .count
  | keys => .keys
  | order => .order
  | limit => .limit

theorem mem_all (key : SelectionKey) : key ∈ all := by
  cases key <;> decide

end SelectionKey

/-- The table of the group, recommend and suggest endpoints. -/
abbrev selectionTable : Table where
  Key := SelectionKey
  Field := SelectionKey
  keys := SelectionKey.all
  name := SelectionKey.name
  field := id
  kind := SelectionKey.kind

end Intake.Request
