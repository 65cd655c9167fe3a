/-!
# Bytes

Inputs, keys and arena contents are lists of bytes. This module names the bytes that the two wire
formats give a meaning to, and cuts a list at the first occurrence of a separator.
-/

namespace Intake

/-- A string of bytes, of any encoding or of none. -/
abbrev Bytes := List UInt8

namespace Byte

abbrev tab : UInt8 := 0x09
abbrev lineFeed : UInt8 := 0x0A
abbrev formFeed : UInt8 := 0x0C
abbrev carriageReturn : UInt8 := 0x0D
abbrev space : UInt8 := 0x20
abbrev quote : UInt8 := 0x22
abbrev percent : UInt8 := 0x25
abbrev ampersand : UInt8 := 0x26
abbrev plus : UInt8 := 0x2B
abbrev comma : UInt8 := 0x2C
abbrev minus : UInt8 := 0x2D
abbrev slash : UInt8 := 0x2F
abbrev zero : UInt8 := 0x30
abbrev nine : UInt8 := 0x39
abbrev colon : UInt8 := 0x3A
abbrev equals : UInt8 := 0x3D
abbrev questionMark : UInt8 := 0x3F
abbrev openSquare : UInt8 := 0x5B
abbrev backslash : UInt8 := 0x5C
abbrev closeSquare : UInt8 := 0x5D
abbrev letterU : UInt8 := 0x75
abbrev openBrace : UInt8 := 0x7B
abbrev closeBrace : UInt8 := 0x7D

def isSpace (b : UInt8) : Bool :=
  b == space || b == lineFeed || b == carriageReturn || b == tab

/-- The whitespace trimmed from around a header value. -/
def isBlank (b : UInt8) : Bool :=
  isSpace b || b == formFeed

def isDigit (b : UInt8) : Bool :=
  zero ≤ b && b ≤ nine

/-- The value of a hex digit of either case. -/
def hexDigit? (b : UInt8) : Option Nat :=
  if isDigit b then some (b.toNat - 0x30)
  else if 0x61 ≤ b && b ≤ 0x66 then some (b.toNat - 0x61 + 10)
  else if 0x41 ≤ b && b ≤ 0x46 then some (b.toNat - 0x41 + 10)
  else none

/-- Maps the letters `A` to `Z` to lower case and keeps every other byte. -/
def toLower (b : UInt8) : UInt8 :=
  if 0x41 ≤ b && b ≤ 0x5A then b + 0x20 else b

end Byte

namespace Bytes

/-- The parts before and after the first occurrence of `separator`. -/
def cut (bs separator : Bytes) : Option (Bytes × Bytes) :=
  match bs with
  | [] => if separator = [] then some ([], []) else none
  | b :: rest =>
    if separator.isPrefixOf (b :: rest) then
      some ([], (b :: rest).drop separator.length)
    else
      (cut rest separator).map fun (before, after) => (b :: before, after)

theorem eq_of_cut {bs separator before after : Bytes}
    (h : cut bs separator = some (before, after)) : bs = before ++ separator ++ after := by
  induction bs generalizing before with
  | nil =>
    by_cases hs : separator = [] <;> simp_all [cut]
  | cons b rest ih =>
    unfold cut at h
    split at h
    next hp =>
      obtain ⟨tail, htail⟩ := List.isPrefixOf_iff_prefix.1 hp
      simp only [Option.some.injEq, Prod.mk.injEq] at h
      obtain ⟨rfl, rfl⟩ := h
      simp [← htail]
    next =>
      obtain ⟨⟨l, r⟩, hc, he⟩ := Option.map_eq_some_iff.1 h
      simp only [Prod.mk.injEq] at he
      obtain ⟨rfl, rfl⟩ := he
      simp [ih hc]

def trim (bs : Bytes) : Bytes :=
  ((bs.dropWhile Byte.isBlank).reverse.dropWhile Byte.isBlank).reverse

/-- The carriage return and line feed that end each line of a request head. -/
def lineEnd : Bytes := [Byte.carriageReturn, Byte.lineFeed]

/-- The lines of `bs`: what stands between its line ends. -/
def lines : Bytes → List Bytes
  | [] => [[]]
  | [b] => [[b]]
  | b :: c :: rest =>
    if b = Byte.carriageReturn ∧ c = Byte.lineFeed then [] :: lines rest
    else (lines (c :: rest)).modifyHead (b :: ·)

end Bytes

end Intake
