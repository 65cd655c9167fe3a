import Intake.Proofs.Checked.Arena
import Intake.Request.Percent

/-!
# Percent-encoded values by position

The value of a digit is an entry of a table of 64, and an escape is read at two bytes behind its percent
sign, once the bytes that are left were counted.
-/

namespace Intake.Checked

open Request

variable {input : Bytes}

/-- The value of a hex digit, taken out of a table. -/
def nibble (b : UInt8) : Checked UInt8 := do
  entry 64 ((b - Byte.zero) &&& 0x3F).toNat
  return Percent.nibble b

theorem nibble_eq (b : UInt8) : nibble b = .ok (Percent.nibble b) := by
  have hlt : ((b - Byte.zero) &&& 0x3F).toNat < 64 := by
    rw [UInt8.toNat_and]
    exact Nat.lt_succ_of_le Nat.and_le_right
  rw [nibble, entry_of_lt hlt]
  rfl

/-- The byte that a unit stands for and how long the unit is, or why decoding ends there. -/
abbrev UnitFound := Except Percent.Outcome (UInt8 × Nat)

def escape (input : Bytes) (p : Nat) : Checked UnitFound := do
  let left ← difference input.length p
  if left < 3 then return .error (.needMore (← difference 3 left))
  else
    let high ← nibble (← byte input (p + 1))
    let low ← nibble (← byte input (p + 2))
    return .ok (high * 16 + low, 3)

/-- The unit at a position, in front of which `written` bytes were written. -/
def urlUnit (input : Bytes) (written p : Nat) : Checked UnitFound := do
  match input[p]? with
  | none => return .error (.exhausted written)
  | some b =>
    if Percent.isDelimiter b then return .error (.complete written)
    else if b = Byte.percent then escape input p
    else return .ok (if b = Byte.plus then Byte.space else b, 1)

/-- One unit is read, and the decoder goes on behind it if it finds room for the byte. -/
inductive UrlUnit (input : Bytes) (written p : Nat) : Checked UnitFound → Prop
  | stop {outcome : Percent.Outcome} (h : ∀ arena, Percent.decodeFrom written arena p (input.drop p) =
      ⟨.ok outcome, arena, .within input p⟩) : UrlUnit input written p (.ok (.error outcome))
  | byte {value : UInt8} {width : Nat} (hwidth : 0 < width) (hp : p < input.length)
      (h : ∀ arena, Percent.decodeFrom written arena p (input.drop p) =
        match arena.extend [value] with
        | .error overflow => ⟨.error overflow, arena, .within input p⟩
        | .ok arena =>
          Percent.decodeFrom (written + 1) arena (p + width) (input.drop (p + width))) :
      UrlUnit input written p (.ok (.ok (value, width)))

section Escape

variable {p : Nat} {b : UInt8} {rest : Bytes}

theorem escape_of_digits {high low : UInt8} (h : input.drop p = b :: high :: low :: rest) :
    escape input p = .ok (.ok (Percent.nibble high * 16 + Percent.nibble low, 3)) := by
  have hlength : input.length - p = rest.length + 3 := by
    rw [← List.length_drop, h]
    rfl
  have hhigh : input[p + 1]? = some high := by
    rw [← List.getElem?_drop, h]
    rfl
  have hlow : input[p + 2]? = some low := by
    rw [← List.getElem?_drop, h]
    rfl
  rw [escape, difference_of_le (by omega), ok_bind, if_neg (by omega), byte_of_getElem? hhigh, ok_bind,
    nibble_eq, ok_bind, byte_of_getElem? hlow, ok_bind, nibble_eq]
  rfl

theorem escape_of_short (h : input.drop p = b :: rest) (hrest : rest.length < 2) :
    escape input p = .ok (.error (.needMore (2 - rest.length))) := by
  have hlength : input.length - p = rest.length + 1 := by
    rw [← List.length_drop, h]
    rfl
  have hmissing : 3 - (rest.length + 1) = 2 - rest.length := by omega
  rw [escape, difference_of_le (by omega), ok_bind, hlength, if_pos (by omega),
    difference_of_le (by omega), ok_bind, hmissing]
  rfl

theorem escape_spec (written : Nat) (h : input[p]? = some Byte.percent) :
    UrlUnit input written p (escape input p) := by
  have hp : p < input.length := (List.getElem?_eq_some_iff.1 h).1
  have hrest : input.drop p = Byte.percent :: input.drop (p + 1) := Cursor.rest_within_of_getElem? h
  have htail : input.drop (p + 3) = (input.drop (p + 1)).drop 2 := by rw [List.drop_drop]
  rcases htwo : input.drop (p + 1) with _ | ⟨high, _ | ⟨low, tail⟩⟩
  · rw [htwo] at hrest
    rw [escape_of_short hrest Nat.zero_lt_two]
    refine .stop fun arena => ?_
    rw [Cursor.within, hrest]
    rfl
  · rw [htwo] at hrest
    rw [escape_of_short hrest Nat.one_lt_two]
    refine .stop fun arena => ?_
    rw [Cursor.within, hrest]
    rfl
  · rw [htwo] at hrest htail
    rw [escape_of_digits hrest]
    refine .byte (by decide) hp fun arena => ?_
    rw [Cursor.within, hrest, htail]
    rfl

end Escape

theorem urlUnit_spec (input : Bytes) (written p : Nat) :
    UrlUnit input written p (urlUnit input written p) := by
  unfold urlUnit
  cases hbyte : input[p]? with
  | none =>
      have hrest : input.drop p = [] := Cursor.rest_within_of_none hbyte
      refine .stop fun arena => ?_
      rw [Cursor.within, hrest]
      rfl
  | some b =>
      have hrest : input.drop p = b :: input.drop (p + 1) := Cursor.rest_within_of_getElem? hbyte
      have hp : p < input.length := (List.getElem?_eq_some_iff.1 hbyte).1
      dsimp only
      split
      next hdelimiter =>
        refine .stop fun arena => ?_
        rw [Cursor.within, hrest, Percent.decodeFrom.eq_def]
        exact if_pos hdelimiter
      next hdelimiter =>
        split
        next hpercent => exact escape_spec written (hpercent ▸ hbyte)
        next hpercent =>
          refine .byte (by decide) hp fun arena => ?_
          rw [Cursor.within, hrest, Percent.decodeFrom.eq_def]
          exact (if_neg hdelimiter).trans (if_neg hpercent)

theorem urlUnit_of {written p : Nat} {u : Checked UnitFound}
    (h : urlUnit input written p = u) : UrlUnit input written p u := h ▸ urlUnit_spec input written p

theorem urlUnit_width {written p width : Nat} {value : UInt8}
    (h : urlUnit input written p = .ok (.ok (value, width))) : 0 < width ∧ p < input.length := by
  cases urlUnit_of h with
  | byte hwidth hp => exact ⟨hwidth, hp⟩

/-- Decodes the value at `p` to the end of `arena`, of which `written` bytes are there already. -/
def urlFrom (input : Bytes) (written : Nat) (arena : Arena) (p : Nat) : Checked Percent.Decoded :=
  match h : urlUnit input written p with
  | .error trap => .error trap
  | .ok (.error outcome) => .ok ⟨.ok outcome, arena, .within input p⟩
  | .ok (.ok (value, width)) =>
    have := urlUnit_width h
    match extend arena [value] with
    | .error trap => .error trap
    | .ok (.error overflow) => .ok ⟨.error overflow, arena, .within input p⟩
    | .ok (.ok arena) => urlFrom input (written + 1) arena (p + width)
termination_by input.length - p

/-- Decodes the value at `p` to the end of `arena`. -/
def url (input : Bytes) (arena : Arena) (p : Nat) : Checked Percent.Decoded := urlFrom input 0 arena p

theorem urlFrom_eq (input : Bytes) (written : Nat) {arena : Arena} (hfits : arena.Fits) (p : Nat) :
    urlFrom input written arena p = .ok (Percent.decodeFrom written arena p (input.drop p)) := by
  fun_induction urlFrom input written arena p with
  | case1 written arena p trap h =>
      cases urlUnit_of h
  | case2 written arena p outcome h =>
      cases urlUnit_of h with
      | stop hdecode => rw [hdecode]
  | case3 written arena p value width h _ trap hextend =>
      rw [extend_eq hfits] at hextend
      cases hextend
  | case4 written arena p value width h _ overflow hextend =>
      rw [extend_eq hfits, Except.ok.injEq] at hextend
      cases urlUnit_of h with
      | byte _ _ hdecode => rw [hdecode, hextend]
  | case5 written arena p value width h _ next hextend ih =>
      rw [extend_eq hfits, Except.ok.injEq] at hextend
      cases urlUnit_of h with
      | byte _ _ hdecode => rw [hdecode, hextend, ih (hfits.extend hextend)]

theorem url_eq (input : Bytes) {arena : Arena} (hfits : arena.Fits) (p : Nat) :
    url input arena p = .ok (Percent.decode arena (.within input p)) :=
  urlFrom_eq input 0 hfits p

end Intake.Checked
