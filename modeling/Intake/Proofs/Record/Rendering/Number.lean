import Intake.Proofs.Record.Rendering
import Intake.Proofs.Record.Steady.Token

/-!
# Reading a number that was rendered

A number ends where something other than a digit follows. In an object or an array something does: the
whitespace behind the number, a comma or the closing bracket.
-/

namespace Intake.Record

/-- Something that is no digit follows. -/
def Ends (rest : Bytes) : Prop := ∃ b tail, rest = b :: tail ∧ Byte.isDigit b = false

theorem isDigit_of_isSpace {b : UInt8} (h : Byte.isSpace b) : Byte.isDigit b = false := by
  simp only [Byte.isSpace, Bool.or_eq_true, beq_iff_eq] at h
  rcases h with ((rfl | rfl) | rfl) | rfl <;> decide

theorem isSpace_of_isDigit {b : UInt8} (h : Byte.isDigit b) : Byte.isSpace b = false := by
  cases hspace : Byte.isSpace b with
  | false => rfl
  | true => exact absurd h (ne_true_of_eq_false (isDigit_of_isSpace hspace))

theorem Gap.ends {gap tail : Bytes} (h : Gap gap) {b : UInt8} (hb : Byte.isDigit b = false) :
    Ends (gap ++ b :: tail) := by
  cases gap with
  | nil => exact ⟨b, tail, rfl, hb⟩
  | cons a gap => exact ⟨a, gap ++ b :: tail, rfl, isDigit_of_isSpace (h a (List.mem_cons_self ..))⟩

/-! ### Numbers -/

section Numbers

variable {c first : Cursor} {digits bs rest : Bytes} {negative : Bool} {v : Int}

theorem integer_of_digits (hsign : sign c.skipSpace = (negative, first)) (hdigits : Digits digits)
    (hfirst : first.rest = digits ++ rest) (hends : Ends rest)
    (hbound : Decimal.value digits < Decimal.wideBound) : integer c =
      .ok (if negative then -(Decimal.value digits : Int) else Decimal.value digits,
        first.advance digits.length) := by
  obtain ⟨b, tail, rfl, hb⟩ := hends
  obtain ⟨hne, hall⟩ := hdigits
  have htake : first.rest.takeWhile Byte.isDigit = digits := by
    rw [hfirst, List.takeWhile_append_of_pos hall,
      List.takeWhile_cons_of_neg (ne_true_of_eq_false hb), List.append_nil]
  have hskip : first.skipWhile Byte.isDigit = first.advance digits.length :=
    Cursor.skipWhile_of_append hall hb hfirst
  have hvalue : Decimal.bounded? Decimal.wideBound digits = some (Decimal.value digits) := by
    rw [Decimal.bounded?_eq (by decide), if_pos hbound]
  simp only [integer, hsign, htake, hskip, Cursor.rest_advance hfirst, if_neg hne, hvalue,
    if_neg (List.cons_ne_nil b tail)]

theorem sign_of_digits (hdigits : Digits digits) (hc : c.rest = digits ++ rest) :
    sign c = (false, c) := by
  obtain ⟨hne, hall⟩ := hdigits
  obtain ⟨b, tail, rfl⟩ := List.exists_cons_of_ne_nil hne
  have hb := hall b (List.mem_cons_self ..)
  have hminus : b ≠ Byte.minus := by rintro rfl; exact absurd hb (by decide)
  have hplus : b ≠ Byte.plus := by rintro rfl; exact absurd hb (by decide)
  simp only [sign, hc, List.cons_append, if_neg hminus, if_neg hplus]

theorem sign_of_numeral (h : Numeral v bs) (hc : c.rest = bs ++ rest) :
    ∃ negative first digits, sign c = (negative, first) ∧ Digits digits ∧ first.rest = digits ++ rest ∧
      v = (if negative then -(Decimal.value digits : Int) else Decimal.value digits) ∧
      first.advance digits.length = c.advance bs.length := by
  have hsigned {b : UInt8} {digits : Bytes} (hc : c.rest = b :: digits ++ rest) :
      (c.advance 1).rest = digits ++ rest := Cursor.rest_advance_one hc
  have hadvance (b : UInt8) (digits : Bytes) :
      (c.advance 1).advance digits.length = c.advance (b :: digits).length := by
    rw [Cursor.advance_advance, List.length_cons, Nat.add_comm 1]
  cases h with
  | bare h => exact ⟨false, c, bs, sign_of_digits h hc, h, hc, rfl, rfl⟩
  | plus h =>
      refine ⟨false, c.advance 1, _, ?_, h, hsigned hc, rfl, hadvance _ _⟩
      simp only [sign, hc]
      rfl
  | minus h =>
      refine ⟨true, c.advance 1, _, ?_, h, hsigned hc, rfl, hadvance _ _⟩
      simp only [sign, hc]
      rfl

theorem integer_of_numeral (h : Numeral v bs) (hc : c.skipSpace.rest = bs ++ rest)
    (hends : Ends rest) (hbound : v.natAbs < Decimal.wideBound) :
    integer c = .ok (v, c.skipSpace.advance bs.length) := by
  obtain ⟨negative, first, digits, hsign, hdigits, hfirst, rfl, hadvance⟩ := sign_of_numeral h hc
  have hvalue : Decimal.value digits < Decimal.wideBound := by
    split at hbound
    · simpa using hbound
    · exact hbound
  rw [integer_of_digits hsign hdigits hfirst hends hvalue, hadvance]

theorem identifier_of_numeral {n : Identifier} (h : Numeral n.1 bs)
    (hc : c.skipSpace.rest = bs ++ rest) (hends : Ends rest) :
    identifier c = .ok (n.1, c.skipSpace.advance bs.length) := by
  obtain ⟨n, hn⟩ := n
  have hwide : Decimal.unsignedBound ≤ Decimal.wideBound := by decide
  have hint := integer_of_numeral h hc hends (by dsimp only; omega)
  have hrange : (0 : Int) ≤ (n : Int) ∧ (n : Int) ≤ (Decimal.unsignedBound : Int) - 1 := by omega
  simp only [identifier, integerIn, hint, if_pos hrange, Int.toNat_natCast]

theorem timestamp_of_numeral {t : Timestamp} (h : Numeral t.1 bs)
    (hc : c.skipSpace.rest = bs ++ rest) (hends : Ends rest) :
    timestamp c = .ok (t.1, c.skipSpace.advance bs.length) := by
  obtain ⟨t, hlow, hhigh⟩ := t
  have hwide : Decimal.signedBound < Decimal.wideBound := by decide
  have hint := integer_of_numeral h hc hends (by dsimp only; omega)
  have hrange : -(Decimal.signedBound : Int) ≤ t ∧ t ≤ (Decimal.signedBound : Int) - 1 := by omega
  simp only [timestamp, integerIn, hint, if_pos hrange]

end Numbers

end Intake.Record
