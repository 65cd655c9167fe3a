import Intake.Proofs.Checked
import Intake.Proofs.Record.Steady.Quoted

/-!
# Tokens by position

The readers of punctuation, keys and numbers. A string that is not decoded is sliced out of the input,
a digit is a difference from `0`, and a minus sign negates what the digits spell.
-/

namespace Intake.Checked

open Record (Read Forward)

variable {α β : Type} {input : Bytes}

/-- What a reader found and the position where it stopped, or why it gave up. -/
abbrev Found (α : Type) := Except Record.Stop (α × Nat)

/-- The answer of a reader, by position. -/
def found (r : Read α) : Found α :=
  match r with
  | .error why => .error why
  | .ok (a, d) => .ok (a, d.pos)

/-- At every position of the input the code returns what the reader returns. -/
def Runs (input : Bytes) (code : Nat → Checked (Found α)) (read : Cursor → Read α) : Prop :=
  ∀ p ≤ input.length, code p = .ok (found (read (.within input p)))

section Runs

variable {code : Nat → Checked (Found α)} {read : Cursor → Read α} {p : Nat}
variable (h : Runs input code read) (hp : p ≤ input.length)
include h hp

theorem Runs.error {why : Record.Stop} (hread : read (.within input p) = .error why) :
    code p = .ok (.error why) := by
  rw [h p hp, hread]
  rfl

theorem Runs.ok (hforward : Forward read) {a : α} {d : Cursor}
    (hread : read (.within input p) = .ok (a, d)) :
    code p = .ok (.ok (a, d.pos)) ∧ d = .within input d.pos ∧ d.pos ≤ input.length := by
  have hreach := hforward hread
  refine ⟨?_, Cursor.within_of_reaches hreach, Cursor.pos_le_of_reaches hp hreach⟩
  rw [h p hp, hread]
  rfl

end Runs

theorem skipSpace_le {p : Nat} (hp : p ≤ input.length) : skipSpace input p ≤ input.length :=
  skipWhile_le hp

/-! ### Punctuation and strings -/

def expect (b : UInt8) (input : Bytes) (p : Nat) : Checked (Found Unit) :=
  let p := skipSpace input p
  match input[p]? with
  | none => return .error (.incomplete 1)
  | some a =>
    if a = b then return .ok ((), p + 1) else return .error (.fault (.unexpectedByte a p))

theorem forward_expect (b : UInt8) : Forward (Record.expect b) :=
  fun _ _ _ h => (Record.reaches_of_expect h).1

theorem runs_expect (b : UInt8) (input : Bytes) : Runs input (expect b input) (Record.expect b) := by
  intro p _
  simp only [expect, Record.expect, skipSpace_within]
  cases hbyte : input[skipSpace input p]? with
  | none =>
      rw [Cursor.rest_within_of_none hbyte]
      rfl
  | some a =>
      rw [Cursor.rest_within_of_getElem? hbyte]
      dsimp only
      split <;> rfl

/-- The position of the quote that closes a string whose body goes on at `p`. -/
def closingQuote? (input : Bytes) (p : Nat) : Option Nat :=
  match h : input[p]? with
  | none => none
  | some b =>
    have := (List.getElem?_eq_some_iff.1 h).1
    if b = Byte.quote then some p
    else if b = Byte.backslash then closingQuote? input (p + 2)
    else closingQuote? input (p + 1)
termination_by input.length - p

theorem closingQuote?_eq (input : Bytes) (p : Nat) :
    closingQuote? input p = Record.closingQuote? p (input.drop p) := by
  fun_induction closingQuote? input p with
  | case1 p h => rw [show input.drop p = [] from Cursor.rest_within_of_none h, Record.closingQuote?_nil]
  | case2 p h _ =>
      rw [show input.drop p = _ from Cursor.rest_within_of_getElem? h, Record.closingQuote?_quote]
  | case3 p h _ _ ih =>
      rw [ih, show input.drop p = _ from Cursor.rest_within_of_getElem? h]
      cases hnext : input[p + 1]? with
      | none =>
          have hlen := List.getElem?_eq_none_iff.1 hnext
          rw [List.drop_eq_nil_iff.2 hlen, List.drop_eq_nil_iff.2 (Nat.le_succ_of_le hlen),
            Record.closingQuote?_nil, Record.closingQuote?.eq_def]
          rfl
      | some b =>
          rw [show input.drop (p + 1) = _ from Cursor.rest_within_of_getElem? hnext,
            Record.closingQuote?_escape]
  | case4 p b h _ hquote hback ih =>
      rw [ih, show input.drop p = _ from Cursor.rest_within_of_getElem? h,
        Record.closingQuote?_plain hquote hback]

def rawString (input : Bytes) (p : Nat) : Checked (Found Bytes) := do
  match ← expect Byte.quote input p with
  | .error why => return .error why
  | .ok (_, start) =>
    match closingQuote? input start with
    | none => return .error (.incomplete 1)
    | some stop => return .ok (← slice input start stop, stop + 1)

theorem runs_rawString (input : Bytes) : Runs input (rawString input) Record.rawString := by
  intro p hp
  cases hexpect : Record.expect Byte.quote (.within input p) with
  | error why =>
      rw [rawString, (runs_expect _ input).error hp hexpect, Record.rawString, hexpect]
      rfl
  | ok opened =>
      obtain ⟨u, d⟩ := opened
      obtain ⟨hcode, hd, hle⟩ := (runs_expect _ input).ok hp (forward_expect _) hexpect
      have hrest : d.rest = input.drop d.pos := congrArg Cursor.rest hd
      have hshift := Record.Quoted.closingQuote?_shift d.rest 0 d.pos
      rw [Nat.zero_add] at hshift
      rw [rawString, hcode, ok_bind, Record.rawString, hexpect]
      dsimp only
      rw [closingQuote?_eq, ← hrest, hshift]
      cases hquote : Record.closingQuote? 0 d.rest with
      | none => rfl
      | some index =>
          have hlt := (Record.lt_length_of_closingQuote? hquote).2
          rw [hrest, List.length_drop] at hlt
          dsimp only [Option.map_some]
          rw [slice_of_le (Nat.le_add_left _ _) (by omega), ok_bind, Nat.add_sub_cancel, ← hrest]
          simp only [found, Cursor.advance_pos]
          rw [Nat.add_assoc, Nat.add_left_comm]
          rfl

/-! ### Numbers -/

/-- The sum or product, unless it leaves its range. -/
def below? (bound n : Nat) : Option Nat := if n < bound then some n else none

/-- One more digit at the low end of a number that is not negative, if it stays below the bound. -/
def shiftIn (bound value : Nat) (b : UInt8) : Checked (Option Nat) := do
  let digit ← difference b.toNat Byte.zero.toNat
  return (below? bound (value * 10)).bind fun tens => below? bound (tens + digit)

theorem shiftIn_eq {b : UInt8} (hb : Byte.isDigit b) (bound value : Nat) :
    shiftIn bound value b = .ok (below? bound (Decimal.shift value b)) := by
  rw [shiftIn, difference_of_le (zero_le_of_isDigit hb), ok_bind]
  have hshift : Decimal.shift value b = value * 10 + (b.toNat - Byte.zero.toNat) := rfl
  by_cases hten : value * 10 < bound
  · rw [below?, if_pos hten, Option.bind_some, hshift]
    rfl
  · have hnot : ¬ Decimal.shift value b < bound := by omega
    rw [below?, if_neg hten, Option.bind_none, below?, if_neg hnot]
    rfl

/-- What the digits from a position on came to: a value, whether a digit did not fit, and the position
behind them. -/
structure Digits where
  value : Nat
  overflow : Bool
  stop : Nat

/-- Goes over the digits from position `p` on, to the last even if one does not fit. -/
def digits (input : Bytes) (value : Nat) (overflow : Bool) (p : Nat) : Checked Digits :=
  match h : input[p]? with
  | none => .ok ⟨value, overflow, p⟩
  | some b =>
    have := (List.getElem?_eq_some_iff.1 h).1
    if Byte.isDigit b then
      match shiftIn Decimal.wideBound value b with
      | .error trap => .error trap
      | .ok (some more) => digits input more overflow (p + 1)
      | .ok none => digits input value true (p + 1)
    else .ok ⟨value, overflow, p⟩
termination_by input.length - p

/-- The code has found what the digits spell, or noticed that they spell too much. -/
def Digits.Spell (found : Digits) (overflow : Bool) : Option Nat → Prop
  | some n => found.overflow = overflow ∧ (overflow = false → found.value = n)
  | none => found.overflow = true

theorem digits_spec (input : Bytes) (value : Nat) (overflow : Bool) (p : Nat) :
    ∃ found, digits input value overflow p = .ok found ∧
      found.stop = skipWhile Byte.isDigit input p ∧
      found.Spell overflow
        (Decimal.boundedFrom? Decimal.wideBound value ((input.drop p).takeWhile Byte.isDigit)) := by
  fun_induction digits input value overflow p with
  | case1 value overflow p h =>
      rw [show input.drop p = [] from Cursor.rest_within_of_none h]
      exact ⟨_, rfl, (skipWhile_of_none h).symm, rfl, fun _ => rfl⟩
  | case2 value overflow p b h _ hb trap htrap =>
      rw [shiftIn_eq hb] at htrap
      cases htrap
  | case3 value overflow p b h _ hb more hmore ih =>
      obtain ⟨found, hcode, hstop, hspell⟩ := ih
      rw [shiftIn_eq hb, Except.ok.injEq, below?, Option.ite_none_right_eq_some] at hmore
      obtain ⟨hlt, hmore⟩ := hmore
      rw [skipWhile_of_pos h hb, show input.drop p = _ from Cursor.rest_within_of_getElem? h,
        List.takeWhile_cons_of_pos hb, Decimal.boundedFrom?, if_pos hlt, Option.some.inj hmore]
      exact ⟨found, hcode, hstop, hspell⟩
  | case4 value overflow p b h _ hb hnone ih =>
      obtain ⟨found, hcode, hstop, hspell⟩ := ih
      rw [shiftIn_eq hb, Except.ok.injEq, below?, ite_eq_right_iff] at hnone
      have hge : ¬ Decimal.shift value b < Decimal.wideBound := fun hlt =>
        Option.some_ne_none _ (hnone hlt)
      rw [skipWhile_of_pos h hb, show input.drop p = _ from Cursor.rest_within_of_getElem? h,
        List.takeWhile_cons_of_pos hb, Decimal.boundedFrom?, if_neg hge]
      refine ⟨found, hcode, hstop, ?_⟩
      revert hspell
      cases Decimal.boundedFrom? Decimal.wideBound value
        ((input.drop (p + 1)).takeWhile Byte.isDigit) with
      | none => exact id
      | some n => exact fun hspell => hspell.1
  | case5 value overflow p b h _ hb =>
      rw [show input.drop p = _ from Cursor.rest_within_of_getElem? h,
        List.takeWhile_cons_of_neg hb]
      exact ⟨_, rfl, (skipWhile_of_neg h hb).symm, rfl, fun _ => rfl⟩

/-- The sign in front of a number, and the position behind it. -/
def sign (input : Bytes) (p : Nat) : Bool × Nat :=
  match input[p]? with
  | none => (false, p)
  | some b =>
    if b = Byte.minus then (true, p + 1)
    else if b = Byte.plus then (false, p + 1)
    else (false, p)

theorem sign_within (input : Bytes) (p : Nat) :
    Record.sign (.within input p) = ((sign input p).1, .within input (sign input p).2) := by
  unfold sign Record.sign
  cases hbyte : input[p]? with
  | none => rw [Cursor.rest_within_of_none hbyte]
  | some b =>
      rw [Cursor.rest_within_of_getElem? hbyte]
      dsimp only
      split
      · rw [Cursor.advance_within]
      · split
        · rw [Cursor.advance_within]
        · rfl

theorem sign_le {p : Nat} (hp : p ≤ input.length) : (sign input p).2 ≤ input.length := by
  have hreach := Record.reaches_sign (.within input p)
  rw [sign_within] at hreach
  exact Cursor.pos_le_of_reaches hp hreach

def integer (input : Bytes) (p : Nat) : Checked (Found Int) := do
  let start := skipSpace input p
  let (negative, first) := sign input start
  let found ← digits input 0 false first
  if found.stop = input.length then return .error (.incomplete 1)
  else if found.stop = first then return .error (.fault (.invalidNumber start))
  else if found.overflow then return .error (.fault (.numberOverflow start))
  else if negative then return .ok (← negate found.value, found.stop)
  else return .ok (found.value, found.stop)

theorem runs_integer (input : Bytes) : Runs input (integer input) Record.integer := by
  intro p hp
  obtain ⟨negative, first, hpair⟩ :
      ∃ negative first, sign input (skipSpace input p) = (negative, first) := ⟨_, _, rfl⟩
  have hsign := sign_within input (skipSpace input p)
  have hfirst := sign_le (skipSpace_le hp)
  rw [hpair] at hsign hfirst
  obtain ⟨found, hdigits, hstop, hspell⟩ := digits_spec input 0 false first
  have hend := Cursor.rest_within_eq_nil_iff (skipWhile_le (p := Byte.isDigit) hfirst)
  have hnone : (Cursor.within input first).rest.takeWhile Byte.isDigit = [] ↔
      skipWhile Byte.isDigit input first = first := takeWhile_within_eq_nil_iff
  change found.Spell false (Decimal.bounded? Decimal.wideBound
    ((Cursor.within input first).rest.takeWhile Byte.isDigit)) at hspell
  simp only [integer, hpair, hdigits, ok_bind, Record.integer, skipSpace_within, hsign,
    skipWhile_within, hend, hnone, hstop]
  by_cases hcut : skipWhile Byte.isDigit input first = input.length
  · rw [if_pos hcut, if_pos hcut]
    rfl
  rw [if_neg hcut, if_neg hcut]
  by_cases hempty : skipWhile Byte.isDigit input first = first
  · rw [if_pos hempty, if_pos hempty]
    rfl
  rw [if_neg hempty, if_neg hempty]
  revert hspell
  cases Decimal.bounded? Decimal.wideBound
    ((Cursor.within input first).rest.takeWhile Byte.isDigit) with
  | none =>
      intro (hoverflow : found.overflow = true)
      rw [if_pos hoverflow]
      rfl
  | some magnitude =>
      rintro ⟨hoverflow, hvalue⟩
      rw [if_neg (Bool.eq_false_iff.1 hoverflow), hvalue rfl]
      cases negative with
      | false => rfl
      | true =>
          have hpos : 0 < Decimal.wideBound := by decide
          have hne : (magnitude : Int) ≠ -Decimal.wideBound := by omega
          rw [if_pos rfl, negate_of_ne hne]
          rfl

/-- Reads a number between `low` and `high`. -/
def integerIn (low high : Int) (input : Bytes) (p : Nat) : Checked (Found Int) := do
  match ← integer input p with
  | .error why => return .error why
  | .ok (value, q) =>
    if low ≤ value ∧ value ≤ high then return .ok (value, q)
    else return .error (.fault (.numberOverflow p))

theorem runs_integerIn (low high : Int) (input : Bytes) :
    Runs input (integerIn low high input) (Record.integerIn low high) := by
  intro p hp
  rw [integerIn, runs_integer input p hp, ok_bind, Record.integerIn]
  cases Record.integer (.within input p) with
  | error why => rfl
  | ok read =>
      simp only [found]
      split <;> rfl

def timestamp : Bytes → Nat → Checked (Found Int) :=
  integerIn (-Decimal.signedBound) (Decimal.signedBound - 1)

theorem runs_timestamp (input : Bytes) : Runs input (timestamp input) Record.timestamp :=
  runs_integerIn _ _ input

def identifier (input : Bytes) (p : Nat) : Checked (Found Nat) := do
  match ← integerIn 0 (Decimal.unsignedBound - 1) input p with
  | .error why => return .error why
  | .ok (value, q) => return .ok (value.toNat, q)

theorem runs_identifier (input : Bytes) : Runs input (identifier input) Record.identifier := by
  intro p hp
  rw [identifier, runs_integerIn _ _ input p hp, ok_bind, Record.identifier]
  cases Record.integerIn 0 (Decimal.unsignedBound - 1) (.within input p) <;> rfl

end Intake.Checked
