import Intake.Proofs.Cursor
import Intake.Text.Decimal

/-!
# Partial operations

An index has to lie in its list and a slice has its ends in order, a difference of unsigned numbers
must not fall below zero, a sum must not leave its width. The decoders are written out here once more as a
machine runs them: over one input and by position, with every such operation made a computation that
traps where it is not defined. Each of them is shown to return what the decoder returns, so none
of its operations traps.

Positions and lengths are numbers without a bound: the bytes of an input and of an arena lie in memory,
and no position is more than a few bytes past their end. The differences of positions are checked.
-/

namespace Intake

/-- The operation that was run where it is not defined. -/
inductive Trap where
  /-- An index into a list or a table. -/
  | index
  | slice
  /-- A difference of unsigned numbers. -/
  | difference
  /-- A sum of unsigned numbers. -/
  | sum
  /-- A shift by the width of the word or more. -/
  | shift
  /-- The negation of the least number of 64 bits. -/
  | negation
  | assertion
  /-- A round of a loop that moves nothing on, which would go round for ever. -/
  | loop
deriving DecidableEq

abbrev Checked (α : Type) := Except Trap α

namespace Checked

variable {α β : Type}

@[simp] theorem ok_bind (a : α) (f : α → Checked β) : ((Except.ok a : Checked α) >>= f) = f a := rfl

/-- Goes on where the condition holds. -/
def require (trap : Trap) (p : Prop) [Decidable p] : Checked Unit :=
  if p then .ok () else .error trap

theorem require_of {trap : Trap} {p : Prop} [Decidable p] (h : p) : require trap p = .ok () := if_pos h

def byte (bs : Bytes) (i : Nat) : Checked UInt8 :=
  match bs[i]? with
  | some b => .ok b
  | none => .error .index

def slice (bs : Bytes) (start stop : Nat) : Checked Bytes := do
  require .slice (start ≤ stop ∧ stop ≤ bs.length)
  return (bs.drop start).take (stop - start)

/-- The slice up to the end of the list. -/
def sliceFrom (bs : Bytes) (start : Nat) : Checked Bytes := slice bs start bs.length

/-- An index into a table of `size` entries. -/
def entry (size i : Nat) : Checked Unit := require .index (i < size)

def difference (a b : Nat) : Checked Nat := do
  require .difference (b ≤ a)
  return a - b

/-- A sum of two unsigned numbers of 32 bits. -/
def sum (a b : Nat) : Checked Nat := do
  require .sum (a + b < Decimal.unsignedBound)
  return a + b

/-- A word of 32 bits shifted to the left. The bits that leave it are lost. -/
def shift (word places : Nat) : Checked Nat := do
  require .shift (places < 32)
  return word <<< places % Decimal.unsignedBound

/-- The word of 64 bits in which one bit is set. -/
def bit (i : Nat) : Checked (BitVec 64) := do
  require .shift (i < 64)
  return 1#64 <<< i

/-- The negation of a signed number of 64 bits. -/
def negate (n : Int) : Checked Int := do
  require .negation (n ≠ -Decimal.wideBound)
  return -n

section

variable {bs : Bytes} {a b i start stop : Nat}

theorem byte_of_getElem? {b : UInt8} (h : bs[i]? = some b) : byte bs i = .ok b := by
  rw [byte, h]

theorem slice_of_le (hstart : start ≤ stop) (hstop : stop ≤ bs.length) :
    slice bs start stop = .ok ((bs.drop start).take (stop - start)) := by
  rw [slice, require_of ⟨hstart, hstop⟩]
  rfl

theorem slice_zero (h : stop ≤ bs.length) : slice bs 0 stop = .ok (bs.take stop) :=
  slice_of_le (Nat.zero_le _) h

theorem sliceFrom_of_le (h : start ≤ bs.length) : sliceFrom bs start = .ok (bs.drop start) := by
  rw [sliceFrom, slice_of_le h (Nat.le_refl _), List.take_of_length_le (Nat.le_of_eq List.length_drop)]

theorem entry_of_lt {size : Nat} (h : i < size) : entry size i = .ok () := require_of h

theorem difference_of_le (h : b ≤ a) : difference a b = .ok (a - b) := by
  rw [difference, require_of h]
  rfl

theorem sum_of_lt (h : a + b < Decimal.unsignedBound) : sum a b = .ok (a + b) := by
  rw [sum, require_of h]
  rfl

theorem shift_of_lt {word places : Nat} (hplaces : places < 32)
    (h : word <<< places < Decimal.unsignedBound) : shift word places = .ok (word <<< places) := by
  rw [shift, require_of hplaces, ok_bind, Nat.mod_eq_of_lt h]
  rfl

theorem bit_of_lt (h : i < 64) : bit i = .ok (1#64 <<< i) := by
  rw [bit, require_of h]
  rfl

theorem negate_of_ne {n : Int} (h : n ≠ -Decimal.wideBound) : negate n = .ok (-n) := by
  rw [negate, require_of h]
  rfl

theorem zero_le_of_isDigit {b : UInt8} (h : Byte.isDigit b) : Byte.zero.toNat ≤ b.toNat := by
  simp only [Byte.isDigit, Bool.and_eq_true, decide_eq_true_eq] at h
  exact UInt8.le_iff_toNat_le.1 h.1

end

end Checked

/-! ### Positions -/

namespace Cursor

variable {input : Bytes} {p : Nat} {d : Cursor}

@[simp] theorem rest_within (input : Bytes) (p : Nat) : (within input p).rest = input.drop p := rfl

theorem advance_within (input : Bytes) (p n : Nat) :
    (within input p).advance n = within input (p + n) := by
  simp only [within, advance, List.drop_drop]

theorem rest_within_of_getElem? {b : UInt8} (h : input[p]? = some b) :
    (within input p).rest = b :: input.drop (p + 1) := by
  obtain ⟨hp, rfl⟩ := List.getElem?_eq_some_iff.1 h
  exact List.drop_eq_getElem_cons hp

theorem rest_within_of_none (h : input[p]? = none) : (within input p).rest = [] :=
  List.drop_eq_nil_iff.2 (List.getElem?_eq_none_iff.1 h)

theorem rest_within_eq_nil_iff (hp : p ≤ input.length) :
    (within input p).rest = [] ↔ p = input.length := by
  rw [rest_within, List.drop_eq_nil_iff]
  exact ⟨Nat.le_antisymm hp, fun h => Nat.le_of_eq h.symm⟩

theorem getElem?_eq_head? (input : Bytes) (p : Nat) : input[p]? = (within input p).rest.head? :=
  List.head?_drop.symm

/-- A reader that starts at a position stops at a position of the same input. -/
theorem within_of_reaches (h : (within input p).Reaches d) : d = within input d.pos := by
  obtain ⟨read, hrest, hpos⟩ := h
  obtain ⟨pos, rest⟩ := d
  have hpos' : pos = p + read.length := hpos
  have hrest' : input.drop p = read ++ rest := hrest
  rw [within, mk.injEq]
  refine ⟨rfl, ?_⟩
  rw [hpos', ← List.drop_drop, hrest', List.drop_left]

theorem pos_le_of_reaches (hp : p ≤ input.length) (h : (within input p).Reaches d) :
    d.pos ≤ input.length := by
  have hsum := h.pos_add_length
  simp only [within, List.length_drop] at hsum
  omega

end Cursor

namespace Checked

/-- The first position from `pos` on at which `p` fails. -/
def skipWhile (p : UInt8 → Bool) (input : Bytes) (pos : Nat) : Nat :=
  match h : input[pos]? with
  | none => pos
  | some b =>
    have := (List.getElem?_eq_some_iff.1 h).1
    if p b then skipWhile p input (pos + 1) else pos
termination_by input.length - pos

def skipSpace (input : Bytes) (pos : Nat) : Nat := skipWhile Byte.isSpace input pos

section SkipWhile

variable {p : UInt8 → Bool} {input : Bytes} {pos : Nat} {b : UInt8}

theorem skipWhile_of_none (h : input[pos]? = none) : skipWhile p input pos = pos := by
  rw [skipWhile]
  split
  · rfl
  next hsome => cases h.symm.trans hsome

theorem skipWhile_of_pos (h : input[pos]? = some b) (hb : p b) :
    skipWhile p input pos = skipWhile p input (pos + 1) := by
  rw [skipWhile]
  split
  next hnone => cases h.symm.trans hnone
  next hsome =>
    cases h.symm.trans hsome
    exact if_pos hb

theorem skipWhile_of_neg (h : input[pos]? = some b) (hb : ¬ p b) : skipWhile p input pos = pos := by
  rw [skipWhile]
  split
  · rfl
  next hsome =>
    cases h.symm.trans hsome
    exact if_neg hb

end SkipWhile

theorem skipWhile_within (p : UInt8 → Bool) (input : Bytes) (pos : Nat) :
    (Cursor.within input pos).skipWhile p = .within input (skipWhile p input pos) := by
  fun_induction skipWhile p input pos with
  | case1 pos h => exact Cursor.skipWhile_of_nil (Cursor.rest_within_of_none h)
  | case2 pos b h _ hb ih =>
      rw [Cursor.skipWhile_cons (Cursor.rest_within_of_getElem? h) hb, Cursor.advance_within, ih]
  | case3 pos b h _ hb =>
      exact Cursor.skipWhile_of_neg (Cursor.rest_within_of_getElem? h) (Bool.eq_false_iff.2 hb)

theorem skipWhile_le {p : UInt8 → Bool} {input : Bytes} {pos : Nat} (hpos : pos ≤ input.length) :
    skipWhile p input pos ≤ input.length := by
  have hreach := Cursor.reaches_skipWhile p (.within input pos)
  rw [skipWhile_within] at hreach
  exact Cursor.pos_le_of_reaches hpos hreach

theorem takeWhile_within_eq_nil_iff {p : UInt8 → Bool} {input : Bytes} {pos : Nat} :
    (Cursor.within input pos).rest.takeWhile p = [] ↔ skipWhile p input pos = pos := by
  have hpos := congrArg Cursor.pos (skipWhile_within p input pos)
  change pos + ((Cursor.within input pos).rest.takeWhile p).length = skipWhile p input pos at hpos
  rw [← List.length_eq_zero_iff]
  omega

theorem skipSpace_within (input : Bytes) (pos : Nat) :
    (Cursor.within input pos).skipSpace = .within input (skipSpace input pos) :=
  skipWhile_within Byte.isSpace input pos

end Checked

end Intake
