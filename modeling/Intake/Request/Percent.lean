import Intake.Arena
import Intake.Cursor

/-!
# Percent encoding

Values of a query are percent-encoded, and a plus sign is a space. Decoding stops at the next
delimiter and refuses nothing: an escape with bytes that are no digits has some value too, which
depends on the low six bits of the bytes alone.
-/

namespace Intake.Request.Percent

/-- The value of a digit by its distance from `0`, of which the low six bits count. -/
def slot (distance : UInt8) : UInt8 :=
  let i := distance &&& 0x3F
  if i < 10 then i
  else if 17 ≤ i && i ≤ 22 then i - 7
  else if 49 ≤ i && i ≤ 54 then i - 39
  else 0

/-- The value of a hex digit of either case. -/
def nibble (b : UInt8) : UInt8 := slot (b - Byte.zero)

/-- A byte that ends a value. -/
def isDelimiter (b : UInt8) : Bool :=
  b == Byte.ampersand || b == Byte.space || b == 0

/-- Why decoding ended, and how many bytes it wrote. -/
inductive Outcome where
  | complete (written : Nat)
  /-- At the end of the input. -/
  | exhausted (written : Nat)
  /-- At an escape that the end of the input cuts short by `missing` bytes. -/
  | needMore (missing : Nat)
deriving DecidableEq

/-- What was decoded. When the arena is full it keeps what fitted, and `after` is the place of the
first unit that did not. -/
structure Decoded where
  outcome : Except Overflow Outcome
  arena : Arena
  after : Cursor

/-- Decodes `rest`, which starts `pos` bytes into the input, after `written` bytes. -/
def decodeFrom (written : Nat) (arena : Arena) (pos : Nat) : Bytes → Decoded
  | [] => ⟨.ok (.exhausted written), arena, ⟨pos, []⟩⟩
  | b :: rest =>
    if isDelimiter b then ⟨.ok (.complete written), arena, ⟨pos, b :: rest⟩⟩
    else if b = Byte.percent then
      match rest with
      | high :: low :: tail =>
        match arena.push (nibble high * 16 + nibble low) with
        | .error overflow => ⟨.error overflow, arena, ⟨pos, b :: rest⟩⟩
        | .ok arena => decodeFrom (written + 1) arena (pos + 3) tail
      | [_] => ⟨.ok (.needMore 1), arena, ⟨pos, b :: rest⟩⟩
      | [] => ⟨.ok (.needMore 2), arena, ⟨pos, b :: rest⟩⟩
    else
      match arena.push (if b = Byte.plus then Byte.space else b) with
      | .error overflow => ⟨.error overflow, arena, ⟨pos, b :: rest⟩⟩
      | .ok arena => decodeFrom (written + 1) arena (pos + 1) rest

def decode (arena : Arena) (c : Cursor) : Decoded :=
  decodeFrom 0 arena c.pos c.rest

end Intake.Request.Percent
