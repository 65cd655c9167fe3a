import Intake.Bytes

/-!
# Decimal numbers

Numbers are read digit by digit under a bound, so no input makes a value wrap: `bounded?` gives up
at the first digit that reaches the bound, and `bounded?_eq` says that this is exactly a test of the
value.
-/

namespace Intake.Decimal

/-- One more digit at the low end. -/
def shift (value : Nat) (digit : UInt8) : Nat :=
  value * 10 + (digit.toNat - Byte.zero.toNat)

/-- The number that a string of digits spells. -/
def value (digits : Bytes) : Nat :=
  digits.foldl shift 0

/-- The number that `digits` spell after `sofar`, as long as it stays below `bound`. -/
def boundedFrom? (bound : Nat) (sofar : Nat) : Bytes → Option Nat
  | [] => some sofar
  | digit :: digits =>
    if shift sofar digit < bound then boundedFrom? bound (shift sofar digit) digits else none

/-- The number that `digits` spell, if it is below `bound`. -/
def bounded? (bound : Nat) (digits : Bytes) : Option Nat :=
  boundedFrom? bound 0 digits

theorem le_shift (value : Nat) (digit : UInt8) : value ≤ shift value digit := by
  unfold shift
  omega

theorem le_foldl_shift (sofar : Nat) (digits : Bytes) : sofar ≤ digits.foldl shift sofar := by
  induction digits generalizing sofar with
  | nil => exact Nat.le_refl _
  | cons digit digits ih => exact Nat.le_trans (le_shift sofar digit) (ih _)

theorem boundedFrom?_eq {bound sofar : Nat} (h : sofar < bound) (digits : Bytes) :
    boundedFrom? bound sofar digits =
      if digits.foldl shift sofar < bound then some (digits.foldl shift sofar) else none := by
  induction digits generalizing sofar with
  | nil => simp [boundedFrom?, h]
  | cons digit digits ih =>
    rw [boundedFrom?, List.foldl_cons]
    by_cases hd : shift sofar digit < bound
    · rw [if_pos hd]
      exact ih hd
    · have := le_foldl_shift (shift sofar digit) digits
      rw [if_neg hd, if_neg (by omega)]

/-- Giving up early loses no value below the bound. -/
theorem bounded?_eq {bound : Nat} (h : 0 < bound) (digits : Bytes) :
    bounded? bound digits = if value digits < bound then some (value digits) else none :=
  boundedFrom?_eq h digits

/-- A number written in digits alone, with no sign and nothing around it. -/
def plain? (bound : Nat) (bs : Bytes) : Option Nat :=
  if bs ≠ [] ∧ bs.all Byte.isDigit then bounded? bound bs else none

/-- One past the largest unsigned number of 32 bits. -/
abbrev unsignedBound : Nat := 0x100000000

/-- One past the largest signed number of 32 bits. -/
abbrev signedBound : Nat := 0x80000000

/-- One past the largest signed number of 64 bits. -/
abbrev wideBound : Nat := 0x8000000000000000

/-- A plain number that fits 32 bits without a sign. -/
def unsigned? (bs : Bytes) : Option Nat :=
  plain? unsignedBound bs

/-- A plain number, with a minus sign or none, that fits 32 bits with a sign. -/
def signed? : Bytes → Option Int
  | [] => none
  | b :: bs =>
    if b = Byte.minus then (plain? (signedBound + 1) bs).map fun n => -(n : Int)
    else (plain? signedBound (b :: bs)).map fun n => (n : Int)

end Intake.Decimal
