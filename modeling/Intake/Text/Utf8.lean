import Intake.Bytes

/-!
# UTF-8

`encode` writes one code point in the UTF-8 bit layout, surrogates included, so that a lone
surrogate of an escape has bytes of its own. Reading is strict: `scan` yields the characters of a
byte string in order and a `none` for each maximal part that is no character.
-/

namespace Intake.Utf8

/-- The bytes of one code point below `0x200000`. -/
def encode (code : Nat) : Bytes :=
  if code < 0x80 then [.ofNat code]
  else if code < 0x800 then [.ofNat (0xC0 + code / 0x40), .ofNat (0x80 + code % 0x40)]
  else if code < 0x10000 then
    [.ofNat (0xE0 + code / 0x1000), .ofNat (0x80 + code / 0x40 % 0x40), .ofNat (0x80 + code % 0x40)]
  else
    [.ofNat (0xF0 + code / 0x40000 % 8), .ofNat (0x80 + code / 0x1000 % 0x40),
      .ofNat (0x80 + code / 0x40 % 0x40), .ofNat (0x80 + code % 0x40)]

def ofString (text : String) : Bytes :=
  text.toList.flatMap fun c => encode c.toNat

/-- A character that has begun: `left` continuation bytes are due, the next of them between `low`
and `high`, and `code` is what the bytes so far spell. -/
structure Pending where
  left : Nat
  low : UInt8
  high : UInt8
  code : Nat

/-- What a byte does to the reading: the parts it completes and the character it leaves open. -/
abbrev Step := List (Option Char) × Option Pending

/-- A byte where a character may begin. The narrowed ranges of the second byte leave out long
forms, surrogates and codes above `0x10FFFF`. -/
def first (b : UInt8) : Step :=
  if b < 0x80 then ([some (.ofNat b.toNat)], none)
  else if b < 0xC2 then ([none], none)
  else if b < 0xE0 then ([], some ⟨1, 0x80, 0xBF, b.toNat % 0x20⟩)
  else if b < 0xF0 then
    ([], some ⟨2, if b = 0xE0 then 0xA0 else 0x80, if b = 0xED then 0x9F else 0xBF, b.toNat % 0x10⟩)
  else if b < 0xF5 then
    ([], some ⟨3, if b = 0xF0 then 0x90 else 0x80, if b = 0xF4 then 0x8F else 0xBF, b.toNat % 8⟩)
  else ([none], none)

/-- A byte after an open character, if there is one. A byte that does not continue it closes the
broken part and begins anew. -/
def step : Option Pending → UInt8 → Step
  | none, b => first b
  | some p, b =>
    if p.low ≤ b ∧ b ≤ p.high then
      let code := p.code * 0x40 + b.toNat % 0x40
      if p.left ≤ 1 then ([some (.ofNat code)], none) else ([], some ⟨p.left - 1, 0x80, 0xBF, code⟩)
    else
      (none :: (first b).1, (first b).2)

/-- The characters of a byte string, with `none` for each maximal part that is no character. -/
def scan : Option Pending → Bytes → List (Option Char)
  | none, [] => []
  | some _, [] => [none]
  | pending, b :: rest => (step pending b).1 ++ scan (step pending b).2 rest

/-- The characters of `bs`, if it is UTF-8. -/
def decode? (bs : Bytes) : Option (List Char) :=
  (scan none bs).mapM id

/-- The characters of `bs`, with the replacement character for each broken part. -/
def decodeLossy (bs : Bytes) : List Char :=
  (scan none bs).map (·.getD '\uFFFD')

end Intake.Utf8
