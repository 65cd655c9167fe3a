import Intake.Cursor
import Intake.Text.Decimal
import Intake.Record.Fault

/-!
# The tokens of a record

Readers for punctuation, keys and numbers. Each skips the whitespace before its token and returns
the cursor just past it. A reader that meets the end of the input asks for more: also within a
number, whose digits may go on.
-/

namespace Intake.Record

/-- What a reader found and where it stopped, or why it gave up. -/
abbrev Read (α : Type) := Except Stop (α × Cursor)

/-- A reader that only moves forward. -/
def Forward {α : Type} (read : Cursor → Read α) : Prop :=
  ∀ ⦃c a d⦄, read c = .ok (a, d) → c.Reaches d

def expect (b : UInt8) (c : Cursor) : Read Unit :=
  match c.skipSpace.rest with
  | [] => .error (.incomplete 1)
  | a :: _ =>
    if a = b then .ok ((), c.skipSpace.advance 1)
    else .error (.fault (.unexpectedByte a c.skipSpace.pos))

/-- The index of the quote that closes a string whose body is `bs`, counted from `index`. A
backslash protects the byte after it. -/
def closingQuote? (index : Nat) : Bytes → Option Nat
  | [] => none
  | b :: rest =>
    if b = Byte.quote then some index
    else if b = Byte.backslash then
      match rest with
      | [] => none
      | _ :: rest => closingQuote? (index + 2) rest
    else closingQuote? (index + 1) rest

@[simp] theorem closingQuote?_nil (index : Nat) : closingQuote? index [] = none := by
  rw [closingQuote?.eq_def]

@[simp] theorem closingQuote?_quote (index : Nat) (rest : Bytes) :
    closingQuote? index (Byte.quote :: rest) = some index := by
  rw [closingQuote?.eq_def]
  rfl

@[simp] theorem closingQuote?_escape (index : Nat) (b : UInt8) (rest : Bytes) :
    closingQuote? index (Byte.backslash :: b :: rest) = closingQuote? (index + 2) rest := by
  rw [closingQuote?.eq_def]
  rfl

theorem closingQuote?_plain {b : UInt8} (hq : b ≠ Byte.quote) (hb : b ≠ Byte.backslash) (index : Nat)
    (rest : Bytes) : closingQuote? index (b :: rest) = closingQuote? (index + 1) rest := by
  rw [closingQuote?.eq_def]
  simp only [if_neg hq, if_neg hb]

/-- Reads a string without decoding it and returns its body as it is written. -/
def rawString (c : Cursor) : Read Bytes :=
  match expect Byte.quote c with
  | .error why => .error why
  | .ok (_, body) =>
    match closingQuote? 0 body.rest with
    | none => .error (.incomplete 1)
    | some index => .ok (body.rest.take index, body.advance (index + 1))

/-- The sign in front of a number, and what follows it. -/
def sign (c : Cursor) : Bool × Cursor :=
  match c.rest with
  | [] => (false, c)
  | b :: _ =>
    if b = Byte.minus then (true, c.advance 1)
    else if b = Byte.plus then (false, c.advance 1)
    else (false, c)

/-- Reads a number of less than 64 bits, with a sign or none. -/
def integer (c : Cursor) : Read Int :=
  let c := c.skipSpace
  let (negative, first) := sign c
  let digits := first.rest.takeWhile Byte.isDigit
  let after := first.skipWhile Byte.isDigit
  if after.rest = [] then .error (.incomplete 1)
  else if digits = [] then .error (.fault (.invalidNumber c.pos))
  else
    match Decimal.bounded? Decimal.wideBound digits with
    | none => .error (.fault (.numberOverflow c.pos))
    | some magnitude => .ok (if negative then -(magnitude : Int) else magnitude, after)

/-- Reads a number between `low` and `high`. One of less than 64 bits that is out of range is
blamed on the place where reading began. -/
def integerIn (low high : Int) (c : Cursor) : Read Int :=
  match integer c with
  | .error why => .error why
  | .ok (value, after) =>
    if low ≤ value ∧ value ≤ high then .ok (value, after)
    else .error (.fault (.numberOverflow c.pos))

/-- Reads a point in time, a signed number of 32 bits. -/
def timestamp (c : Cursor) : Read Int :=
  integerIn (-Decimal.signedBound) (Decimal.signedBound - 1) c

/-- Reads an identifier, an unsigned number of 32 bits. -/
def identifier (c : Cursor) : Read Nat :=
  match integerIn 0 (Decimal.unsignedBound - 1) c with
  | .error why => .error why
  | .ok (value, after) => .ok (value.toNat, after)

theorem reaches_of_expect {b : UInt8} {c d : Cursor} {u : Unit} (h : expect b c = .ok (u, d)) :
    c.Reaches d ∧ d.rest.length < c.rest.length := by
  unfold expect at h
  split at h
  · cases h
  next hr =>
    split at h
    · cases h
      exact ⟨c.reaches_skipSpace.trans (Cursor.reaches_advance_one hr),
        Nat.lt_of_lt_of_le (Cursor.length_advance_one_lt hr) c.reaches_skipSpace.length_le⟩
    · cases h

theorem lt_length_of_closingQuote? {bs : Bytes} {start index : Nat}
    (h : closingQuote? start bs = some index) : start ≤ index ∧ index < start + bs.length := by
  fun_induction closingQuote? start bs with
  | case1 => cases h
  | case2 =>
    cases h
    simp
  | case3 => cases h
  | case4 start _ rest hq ih =>
    have := ih h
    simp only [List.length_cons]
    omega
  | case5 start b rest hq hb ih =>
    have := ih h
    simp only [List.length_cons]
    omega

theorem reaches_of_rawString {c d : Cursor} {body : Bytes} (h : rawString c = .ok (body, d)) :
    c.Reaches d ∧ d.rest.length < c.rest.length := by
  unfold rawString at h
  split at h
  · cases h
  next he =>
    obtain ⟨hr, hl⟩ := reaches_of_expect he
    split at h
    · cases h
    next hq =>
      cases h
      have hlen := (lt_length_of_closingQuote? hq).2
      have hadv := Cursor.reaches_advance _ (Nat.succ_le_of_lt (Nat.zero_add _ ▸ hlen))
      exact ⟨hr.trans hadv, Nat.lt_of_le_of_lt hadv.length_le hl⟩

theorem reaches_sign (c : Cursor) : c.Reaches (sign c).2 := by
  unfold sign
  split
  · exact .refl c
  next hr =>
    split
    · exact Cursor.reaches_advance_one hr
    split
    · exact Cursor.reaches_advance_one hr
    · exact .refl c

theorem forward_integer : Forward integer := by
  intro c value d h
  simp only [integer] at h
  split at h
  · cases h
  split at h
  · cases h
  split at h
  · cases h
  · cases h
    exact c.reaches_skipSpace.trans ((reaches_sign _).trans (Cursor.reaches_skipWhile _ _))

theorem forward_integerIn (low high : Int) : Forward (integerIn low high) := by
  intro c value d h
  unfold integerIn at h
  split at h
  · cases h
  next hi =>
    split at h
    · cases h
      exact forward_integer hi
    · cases h

theorem forward_timestamp : Forward timestamp := forward_integerIn _ _

theorem forward_identifier : Forward identifier := by
  intro c value d h
  unfold identifier at h
  split at h
  · cases h
  next hi =>
    cases h
    exact forward_integerIn _ _ hi

end Intake.Record
