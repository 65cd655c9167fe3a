import Intake.Arena

/-!
# What can be wrong with a record

Each fault names its cause and the offset of the byte it is blamed on. `Stop` adds the other reason
for a reader to give up, an input that ends too early.
-/

namespace Intake.Record

inductive Fault where
  /-- A byte that cannot stand where it stands. -/
  | unexpectedByte (byte : UInt8) (offset : Nat)
  /-- An escape of a code unit without four hex digits. -/
  | invalidUnicodeEscape (offset : Nat)
  /-- A number without digits. -/
  | invalidNumber (offset : Nat)
  /-- A number outside the range of its field. -/
  | numberOverflow (offset : Nat)
  | invalidSex (offset : Nat)
  | invalidStatus (offset : Nat)
  | incompleteLike (offset : Nat)
  | depthExceeded (limit : Nat) (offset : Nat)
  | capacityExceeded (overflow : Overflow)
deriving DecidableEq

namespace Fault

/-- Two lower-case hex digits. -/
def hexByte (b : UInt8) : String :=
  String.ofList [Nat.digitChar (b.toNat / 16), Nat.digitChar (b.toNat % 16)]

def message : Fault → String
  | unexpectedByte byte offset => s!"unexpected byte 0x{hexByte byte} at offset {offset}"
  | invalidUnicodeEscape offset => s!"invalid unicode escape sequence at offset {offset}"
  | invalidNumber offset => s!"invalid number at offset {offset}"
  | numberOverflow offset => s!"number out of range at offset {offset}"
  | invalidSex offset => s!"unknown sex value at offset {offset}"
  | invalidStatus offset => s!"unknown status value at offset {offset}"
  | incompleteLike offset => s!"like entry without both `id` and `ts` at offset {offset}"
  | depthExceeded limit offset => s!"nesting deeper than {limit} at offset {offset}"
  | capacityExceeded overflow => overflow.message

def offset? : Fault → Option Nat
  | unexpectedByte _ offset | invalidUnicodeEscape offset | invalidNumber offset
  | numberOverflow offset | invalidSex offset | invalidStatus offset | incompleteLike offset
  | depthExceeded _ offset => some offset
  | capacityExceeded _ => none

/-- Whether the record is well formed so far but means nothing. -/
def isSemantic : Fault → Bool
  | invalidSex _ | invalidStatus _ | numberOverflow _ | incompleteLike _ => true
  | _ => false

end Fault

/-- Why a reader gave up. -/
inductive Stop where
  | incomplete (missing : Nat)
  | fault (fault : Fault)
deriving DecidableEq

end Intake.Record
