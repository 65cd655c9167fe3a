import Intake.Record.Token

/-!
# Skipped values

A member that no field asks for is stepped over without being decoded. Only its brackets have to
match; between them, commas and colons may stand anywhere. The open brackets are kept as one bit
per level, so a value may nest no deeper than a word has bits.
-/

namespace Intake.Record

inductive Bracket where
  | brace
  | square
deriving DecidableEq

namespace Bracket

def opened? (b : UInt8) : Option Bracket :=
  if b = Byte.openBrace then some .brace
  else if b = Byte.openSquare then some .square
  else none

def closed? (b : UInt8) : Option Bracket :=
  if b = Byte.closeBrace then some .brace
  else if b = Byte.closeSquare then some .square
  else none

end Bracket

/-- The open brackets around a place: their number, and a bit for each level that is set where a
brace opened it. Bits of levels that are not open mean nothing. -/
structure Nest where
  kinds : BitVec 64 := 0
  depth : Nat := 0

namespace Nest

/-- The deepest nesting for which there are bits. -/
def maxDepth : Nat := 64

def enter (n : Nest) (bracket : Bracket) : Nest where
  kinds :=
    match bracket with
    | .brace => n.kinds ||| 1#64 <<< n.depth
    | .square => n.kinds &&& ~~~(1#64 <<< n.depth)
  depth := n.depth + 1

/-- The bracket that opened the innermost level. -/
def innermost? (n : Nest) : Option Bracket :=
  if n.depth = 0 then none
  else some (if n.kinds.getLsbD (n.depth - 1) then .brace else .square)

def leave (n : Nest) : Nest := { n with depth := n.depth - 1 }

end Nest

/-- A byte that ends a bare word such as a number or `null`. -/
def endsWord (b : UInt8) : Bool :=
  b == Byte.comma || b == Byte.closeBrace || b == Byte.closeSquare || b == Byte.colon ||
    b == Byte.quote || Byte.isSpace b

/-- Reads a bare word, which has to be followed by a byte that ends it. -/
def word (c : Cursor) : Read Unit :=
  let after := c.skipWhile fun b => !endsWord b
  match after.rest with
  | [] => .error (.incomplete 1)
  | b :: _ =>
    if after.pos = c.pos then .error (.fault (.unexpectedByte b c.pos)) else .ok ((), after)

theorem reaches_of_word {c d : Cursor} {u : Unit} (h : word c = .ok (u, d)) :
    c.Reaches d ∧ d.rest.length < c.rest.length := by
  simp only [word] at h
  split at h
  · cases h
  split at h
  · cases h
  next hne =>
    cases h
    have hr := Cursor.reaches_skipWhile (fun b => !endsWord b) c
    have hl := hr.pos_add_length
    have hp : c.pos ≤ (c.skipWhile fun b => !endsWord b).pos := by simp [Cursor.skipWhile]
    exact ⟨hr, by omega⟩

/-- Steps over one token within the open brackets `nest` and returns the brackets that are open
after it. -/
def skipToken (limit : Nat) (nest : Nest) (c : Cursor) : Read Nest :=
  match c.rest with
  | [] => .error (.incomplete 1)
  | b :: _ =>
    if b = Byte.quote then
      match rawString c with
      | .error why => .error why
      | .ok (_, d) => .ok (nest, d)
    else
      match Bracket.opened? b, Bracket.closed? b with
      | some bracket, _ =>
        if nest.depth = limit then .error (.fault (.depthExceeded limit c.pos))
        else .ok (nest.enter bracket, c.advance 1)
      | none, some bracket =>
        if nest.innermost? = some bracket then .ok (nest.leave, c.advance 1)
        else .error (.fault (.unexpectedByte b c.pos))
      | none, none =>
        if b = Byte.comma ∨ b = Byte.colon then
          if nest.depth = 0 then .error (.fault (.unexpectedByte b c.pos))
          else .ok (nest, c.advance 1)
        else
          match word c with
          | .error why => .error why
          | .ok (_, d) => .ok (nest, d)

theorem reaches_of_skipToken {limit : Nat} {nest nest' : Nest} {c d : Cursor}
    (h : skipToken limit nest c = .ok (nest', d)) :
    c.Reaches d ∧ d.rest.length < c.rest.length := by
  have one {b : UInt8} {rest : Bytes} (hr : c.rest = b :: rest) :
      c.Reaches (c.advance 1) ∧ (c.advance 1).rest.length < c.rest.length :=
    ⟨Cursor.reaches_advance_one hr, Cursor.length_advance_one_lt hr⟩
  unfold skipToken at h
  split at h
  · cases h
  next hr =>
    split at h
    · split at h
      · cases h
      next hs =>
        cases h
        exact reaches_of_rawString hs
    split at h
    · split at h
      · cases h
      · cases h
        exact one hr
    · split at h
      · cases h
        exact one hr
      · cases h
    · split at h
      · split at h
        · cases h
        · cases h
          exact one hr
      · split at h
        · cases h
        next hw =>
          cases h
          exact reaches_of_word hw

/-- Steps over tokens until no bracket is open. -/
def skipWithin (limit : Nat) (nest : Nest) (c : Cursor) : Read Unit :=
  match h : skipToken limit nest c.skipSpace with
  | .error why => .error why
  | .ok (nest', d) =>
    have := (reaches_of_skipToken h).2
    if nest'.depth = 0 then .ok ((), d) else skipWithin limit nest' d
termination_by c.rest.length
decreasing_by exact Nat.lt_of_lt_of_le this c.reaches_skipSpace.length_le

theorem skipWithin_eq (limit : Nat) (nest : Nest) (c : Cursor) :
    skipWithin limit nest c =
      match skipToken limit nest c.skipSpace with
      | .error why => .error why
      | .ok (nest', d) => if nest'.depth = 0 then .ok ((), d) else skipWithin limit nest' d := by
  rw [skipWithin]
  split <;> simp only [*]

theorem reaches_of_skipWithin {limit : Nat} {nest : Nest} {c d : Cursor} {u : Unit}
    (h : skipWithin limit nest c = .ok (u, d)) : c.Reaches d := by
  fun_induction skipWithin limit nest c with
  | case1 => cases h
  | case2 nest c nest' d' ht _ _ =>
    cases h
    exact c.reaches_skipSpace.trans (reaches_of_skipToken ht).1
  | case3 nest c nest' d' ht _ _ ih =>
    exact c.reaches_skipSpace.trans ((reaches_of_skipToken ht).1.trans (ih h))

/-- How deep a skipped value may nest when `maxNesting` is asked for. -/
def nestingLimit (maxNesting : Nat) : Nat :=
  max 1 (min maxNesting Nest.maxDepth)

def skipValue (maxNesting : Nat) (c : Cursor) : Read Unit :=
  skipWithin (nestingLimit maxNesting) {} c

theorem forward_skipValue (maxNesting : Nat) : Forward (skipValue maxNesting) :=
  fun _ _ _ h => reaches_of_skipWithin h

end Intake.Record
