import Intake.Proofs.Checked.Record
import Intake.Proofs.Stream.Run

/-!
# Streams by position

A stream slices the input at the place where it stands and again at the next record. These places are
positions of the input: the stream moves to what was found behind it, and to the end of the input.
Brackets are balanced from any start, also from one behind the input.
-/

namespace Intake.Checked

open Intake.Stream (opens closes Within)

variable {input : Bytes} {p : Nat}

theorem getElem?_of_byte {b : UInt8} (h : byte input p = .ok b) : input[p]? = some b := by
  unfold byte at h
  split at h
  next hb =>
    cases h
    exact hb
  · cases h

/-! ### Balanced text -/

theorem le_of_closingQuote? {stop : Nat} (h : closingQuote? input p = some stop) : p ≤ stop := by
  rw [closingQuote?_eq] at h
  exact (Record.lt_length_of_closingQuote? h).1

/-- The position past the bracket that closes the last of `depth` open ones. -/
def balancedEnd? (input : Bytes) (depth p : Nat) : Checked (Option Nat) :=
  if p < input.length then
    match byte input p with
    | .error trap => .error trap
    | .ok b =>
      if opens b then balancedEnd? input (depth + 1) (p + 1)
      else if closes b then
        if depth - 1 = 0 then .ok (some (p + 1)) else balancedEnd? input (depth - 1) (p + 1)
      else if b = Byte.quote then
        match h : closingQuote? input (p + 1) with
        | none => .ok none
        | some stop =>
          have := le_of_closingQuote? h
          balancedEnd? input depth (stop + 1)
      else balancedEnd? input depth (p + 1)
  else .ok none
termination_by input.length - p

theorem closingQuote?_body (input : Bytes) (p : Nat) :
    closingQuote? input (p + 1) =
      (Record.closingQuote? 0 ((Cursor.within input p).advance 1).rest).map (· + (p + 1)) := by
  have hshift := Record.Quoted.closingQuote?_shift (input.drop (p + 1)) 0 (p + 1)
  rw [Nat.zero_add] at hshift
  rw [closingQuote?_eq, hshift, Cursor.advance_within, Cursor.rest_within]

theorem balancedEnd?_eq (input : Bytes) (depth p : Nat) :
    balancedEnd? input depth p =
      .ok ((Stream.balancedEnd? depth (.within input p)).map Cursor.pos) := by
  fun_induction balancedEnd? input depth p with
  | case1 depth p hp trap htrap =>
      rw [byte_of_getElem? (List.getElem?_eq_getElem hp)] at htrap
      cases htrap
  | case2 depth p hp b hb hopens ih =>
      have hrest := Cursor.rest_within_of_getElem? (getElem?_of_byte hb)
      rw [ih, Stream.balancedEnd?_cons hrest, if_pos hopens, Cursor.advance_within]
  | case3 depth p hp b hb hopens hcloses hlast =>
      have hrest := Cursor.rest_within_of_getElem? (getElem?_of_byte hb)
      rw [Stream.balancedEnd?_cons hrest, if_neg hopens, if_pos hcloses, if_pos (by omega)]
      rfl
  | case4 depth p hp b hb hopens hcloses hlast ih =>
      have hrest := Cursor.rest_within_of_getElem? (getElem?_of_byte hb)
      rw [ih, Stream.balancedEnd?_cons hrest, if_neg hopens, if_pos hcloses, if_neg (by omega),
        Cursor.advance_within]
  | case5 depth p hp hquote hb hopens hcloses =>
      have hrest := Cursor.rest_within_of_getElem? (getElem?_of_byte hb)
      rw [closingQuote?_body, Option.map_eq_none_iff] at hquote
      rw [Stream.balancedEnd?_cons hrest, if_neg hopens, if_neg hcloses, if_pos rfl, hquote]
      rfl
  | case6 depth p hp stop hquote _ hb hopens hcloses ih =>
      have hrest := Cursor.rest_within_of_getElem? (getElem?_of_byte hb)
      rw [closingQuote?_body, Option.map_eq_some_iff] at hquote
      obtain ⟨index, hindex, rfl⟩ := hquote
      rw [ih, Stream.balancedEnd?_cons hrest, if_neg hopens, if_neg hcloses, if_pos rfl, hindex]
      dsimp only
      rw [Cursor.advance_within, Cursor.advance_within, Nat.add_comm (p + 1), Nat.add_right_comm]
  | case7 depth p hp b hb hopens hcloses hquote ih =>
      have hrest := Cursor.rest_within_of_getElem? (getElem?_of_byte hb)
      rw [ih, Stream.balancedEnd?_cons hrest, if_neg hopens, if_neg hcloses, if_neg hquote,
        Cursor.advance_within]
  | case8 depth p hp =>
      rw [Stream.balancedEnd?]
      split
      · rfl
      next hrest =>
        have hnil : (Cursor.within input p).rest = [] :=
          List.drop_eq_nil_iff.2 (Nat.le_of_not_lt hp)
        cases hnil.symm.trans hrest

/-! ### Records -/

/-- A byte at which the search for a record ends. -/
def isBound (b : UInt8) : Bool := b == Byte.openBrace || b == Byte.closeSquare

/-- The position of the next opening brace, unless the array ends before it. -/
def seek? (input : Bytes) (p : Nat) : Checked (Option Nat) := do
  let rest ← sliceFrom input p
  match rest.findIdx? isBound with
  | none => return none
  | some offset =>
    if (← byte input (p + offset)) = Byte.openBrace then return some (p + offset) else return none

theorem skipWhile_not_isBound (input : Bytes) (p : Nat) :
    ((Cursor.within input p).skipWhile fun b => b != Byte.openBrace && b != Byte.closeSquare) =
      .within input (p + (input.drop p).findIdx isBound) := by
  have hbound : isBound = fun b => !(b != Byte.openBrace && b != Byte.closeSquare) := by
    funext b
    rw [Bool.not_and, bne, bne, Bool.not_not, Bool.not_not, isBound]
  rw [Cursor.skipWhile, Cursor.rest_within, List.takeWhile_eq_take_findIdx_not,
    List.dropWhile_eq_drop_findIdx_not, ← hbound, List.length_take_of_le List.findIdx_le_length,
    List.drop_drop]
  rfl

theorem seek?_eq (hp : p ≤ input.length) :
    seek? input p = .ok ((Stream.seek? (.within input p)).map Cursor.pos) := by
  rw [seek?, sliceFrom_of_le hp, ok_bind, Stream.seek?, skipWhile_not_isBound]
  cases hfound : (input.drop p).findIdx? isBound with
  | none =>
      rw [List.findIdx?_eq_none_iff_findIdx_eq.1 hfound, List.length_drop, Nat.add_sub_cancel' hp,
        Cursor.rest_within, List.drop_length]
      rfl
  | some offset =>
      obtain ⟨hlt, hoffset⟩ := List.findIdx?_eq_some_iff_findIdx_eq.1 hfound
      have hbyte : input[p + offset]? = some (input.drop p)[offset] := by
        rw [← List.getElem?_drop, List.getElem?_eq_getElem hlt]
      rw [hoffset, Cursor.rest_within_of_getElem? hbyte]
      dsimp only
      rw [byte_of_getElem? hbyte, ok_bind]
      split <;> rfl

/-- Decodes the next record into `account`. -/
def next (input : Bytes) (s : Stream) (account : Account) : Checked Stream.Step := do
  if s.truncated then return ⟨none, s, account, []⟩
  else
    match ← seek? input s.position with
    | none => return ⟨none, { s with cursor := .within input input.length }, account, []⟩
    | some start =>
      let decoded ← decodeRecord s.options account (← sliceFrom input start)
      match decoded.result with
      | .ok (.complete consumed) =>
        return ⟨some .decoded,
          { s with cursor := .within input (start + consumed), decoded := s.decoded + 1 },
          decoded.account, decoded.events⟩
      | .ok (.incomplete _) =>
        return ⟨none, { s with cursor := .within input input.length, truncated := true },
          decoded.account, [.cutAccount start]⟩
      | .error fault =>
        let stream ← do
          match ← balancedEnd? input 0 start with
          | some stop => pure { s with cursor := .within input stop, skipped := s.skipped + 1 }
          | none =>
            pure { s with
              cursor := .within input input.length
              skipped := s.skipped + 1
              truncated := true }
        return ⟨some (.skipped fault), stream, decoded.account, [.skippedAccount start fault]⟩

/-- No operation of a call traps, and it answers what the stream answers. -/
theorem next_eq {s : Stream} (hs : Within input s) (account : Account) :
    next input s account = .ok (s.next account) := by
  have hcursor : s.cursor = .within input s.position := Cursor.within_of_reaches hs.1
  have hle : s.position ≤ input.length := Cursor.pos_le_of_reaches (Nat.zero_le _) hs.1
  have hend : s.cursor.toEnd = .within input input.length := by
    rw [Cursor.toEnd, Cursor.within, List.drop_length]
    exact congrArg (Cursor.mk · []) hs.position_add
  have hseek := seek?_eq hle
  rw [← hcursor] at hseek
  unfold next
  by_cases htruncated : s.truncated
  · rw [if_pos htruncated, Stream.next, if_pos htruncated]
    rfl
  rw [if_neg htruncated, hseek, ok_bind, Stream.next, if_neg htruncated, hend]
  cases hrecord : Stream.seek? s.cursor with
  | none => rfl
  | some record =>
      have hreach := hs.1.trans (Stream.reaches_of_seek? hrecord).1
      have hwithin : record = .within input record.pos := Cursor.within_of_reaches hreach
      have hstart : record.pos ≤ input.length := Cursor.pos_le_of_reaches (Nat.zero_le _) hreach
      have hrest : input.drop record.pos = record.rest := (congrArg Cursor.rest hwithin).symm
      simp only [Option.map_some, sliceFrom_of_le hstart, ok_bind, decodeRecord_eq, hrest,
        balancedEnd?_eq, ← hwithin]
      cases hresult : (Record.decode s.options account record.rest).result with
      | ok progress =>
          cases progress with
          | complete consumed =>
              have hadvance := Cursor.advance_within input record.pos consumed
              rw [← hwithin] at hadvance
              dsimp only
              rw [hadvance]
              rfl
          | incomplete missing => rfl
      | error fault =>
          cases hafter : Stream.balancedEnd? 0 record with
          | none => rfl
          | some after =>
              have hplace := Cursor.within_of_reaches
                (hreach.trans (Stream.reaches_of_balancedEnd? hafter).1)
              dsimp only [Option.map_some, Option.getD_some, Option.isNone_some]
              rw [← hplace, ← Bool.eq_false_iff.2 htruncated]
              rfl

end Intake.Checked
