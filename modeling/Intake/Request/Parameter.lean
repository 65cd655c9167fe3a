import Intake.Account
import Intake.Request.GroupKeys
import Intake.Request.Percent

/-!
# Parameter values

Each query parameter has a kind, and the kind says what its value is and how it is read. Only
texts are kept in the arena of the request; a value that is decoded to be compared with known words
leaves the arena as it was.
-/

namespace Intake.Request

inductive Order where
  | ascending
  | descending
deriving DecidableEq

def Order.number : Order → Nat
  | ascending => 0
  | descending => 1

inductive ParameterKind where
  /-- Any text that is not empty. -/
  | text
  | sex
  | status
  /-- One of the digits `0` and `1`. -/
  | flag
  /-- A signed number of 32 bits. -/
  | signed
  /-- An unsigned number of 32 bits. -/
  | count
  /-- An unsigned number of 16 bits. -/
  | code
  /-- An unsigned number of 32 bits that is not zero. -/
  | limit
  /-- One of the digits `0` and `1`, for an order. -/
  | order
  /-- Distinct group keys with commas between them. -/
  | keys
deriving DecidableEq

namespace ParameterKind

abbrev Value : ParameterKind → Type
  | text => Span
  | sex => Option Sex
  | status => Option Status
  | flag => Bool
  | signed => Int
  | count | code | limit => Nat
  | order => Order
  | keys => GroupKeys

/-- The value of a parameter that is not given. -/
def default : (kind : ParameterKind) → kind.Value
  | text => .absent
  | sex | status => none
  | flag => false
  | signed => (0 : Int)
  | count | code | limit => (0 : Nat)
  | order => .ascending
  | keys => .empty

end ParameterKind

/-- What became of a value that was read with an arena at hand. -/
inductive Reading (α : Type) where
  | accepted (value : α) (arena : Arena)
  | malformed
  /-- The arena is full and keeps what fitted. -/
  | overflow (overflow : Overflow) (arena : Arena)

namespace Reading

variable {α β : Type}

def ofOption (value : Option α) (arena : Arena) : Reading α :=
  match value with
  | some value => accepted value arena
  | none => malformed

def map (f : α → β) : Reading α → Reading β
  | accepted value arena => accepted (f value) arena
  | malformed => malformed
  | .overflow o arena => .overflow o arena

/-- Decodes a text that is not empty into the arena. A delimiter or a cut escape in it is refused. -/
def text (raw : Bytes) (arena : Arena) : Reading Span :=
  if raw = [] then malformed
  else
    let decoded := Percent.decode arena (.start raw)
    match decoded.outcome with
    | .error o => .overflow o decoded.arena
    | .ok (.exhausted _) => accepted (decoded.arena.finish arena.cursor) decoded.arena
    | .ok (.complete _) | .ok (.needMore _) => malformed

/-- Decodes a text only to look at it. -/
def scratch (inspect : Bytes → Option α) (raw : Bytes) (arena : Arena) : Reading α :=
  match text raw arena with
  | accepted span written => ofOption (inspect (written.view span)) arena
  | malformed => malformed
  | .overflow o written => .overflow o written

/-- The values of the two digits `0` and `1`. -/
def binary? (zero one : α) (raw : Bytes) : Option α :=
  if raw = [0x30] then some zero else if raw = [0x31] then some one else none

end Reading

def ParameterKind.read : (kind : ParameterKind) → Bytes → Arena → Reading kind.Value
  | text => Reading.text
  | sex => fun raw => .ofOption ((Sex.ofCode? raw).map some)
  | status => Reading.scratch fun text => (Status.ofLiteral? text).map some
  | flag => fun raw => .ofOption (Reading.binary? false true raw)
  | signed => fun raw => .ofOption (Decimal.signed? raw)
  | count => fun raw => .ofOption (Decimal.unsigned? raw)
  | code => fun raw => .ofOption (Decimal.plain? 0x10000 raw)
  | limit => fun raw => .ofOption ((Decimal.unsigned? raw).filter (0 < ·))
  | order => fun raw => .ofOption (Reading.binary? .ascending .descending raw)
  | keys => Reading.scratch GroupKeys.parse?

end Intake.Request
