import Intake.Arena
import Intake.Text.Decimal

/-!
# Headers

Of all headers only the content length is read, and only its last occurrence counts. Names compare
without regard to case, lines without a colon carry nothing.
-/

namespace Intake.Request

/-- What can be wrong with a head. -/
inductive Fault where
  | invalidContentLength (offset : Nat)
  | capacityExceeded (overflow : Overflow)
deriving DecidableEq

def Fault.message : Fault → String
  | invalidContentLength offset => s!"malformed content-length at offset {offset}"
  | capacityExceeded overflow => overflow.message

/-- The header that gives the length of the body, in lower case. -/
def contentLengthName : Bytes := Utf8.ofString "content-length"

/-- Reads the header lines, the first of which starts at `offset`, after a content length was found
to be `length`. The last content length counts, up to the first that is malformed. -/
def readHeaders (offset length : Nat) : List Bytes → Nat × Option Fault
  | [] => (length, none)
  | line :: rest =>
    let next := offset + line.length + Bytes.lineEnd.length
    match line.cut [Byte.colon] with
    | none => readHeaders next length rest
    | some (name, value) =>
      if name.map Byte.toLower = contentLengthName then
        match Decimal.unsigned? value.trim with
        | some length => readHeaders next length rest
        | none => (length, some (.invalidContentLength (offset + name.length + 1)))
      else readHeaders next length rest

end Intake.Request
