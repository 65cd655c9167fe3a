import Intake.Record.Token

/-!
# Balanced text

Where a bracketed piece of text ends, by its brackets alone. Brackets of both kinds count alike, and
those inside strings do not count. This finds the end of a record that could not be decoded.
-/

namespace Intake.Stream

def opens (b : UInt8) : Bool := b == Byte.openBrace || b == Byte.openSquare

def closes (b : UInt8) : Bool := b == Byte.closeBrace || b == Byte.closeSquare

/-- The place just past the bracket that closes the last of `depth` open ones. A closing bracket
where none is open also ends the text. -/
def balancedEnd? (depth : Nat) (c : Cursor) : Option Cursor :=
  match hc : c.rest with
  | [] => none
  | b :: _ =>
    have : (c.advance 1).rest.length < c.rest.length := Cursor.length_advance_one_lt hc
    if opens b then balancedEnd? (depth + 1) (c.advance 1)
    else if closes b then
      if depth ≤ 1 then some (c.advance 1) else balancedEnd? (depth - 1) (c.advance 1)
    else if b = Byte.quote then
      match Record.closingQuote? 0 (c.advance 1).rest with
      | none => none
      | some index =>
        have : ((c.advance 1).advance (index + 1)).rest.length < c.rest.length := by
          simp only [Cursor.advance, List.length_drop] at this ⊢
          omega
        balancedEnd? depth ((c.advance 1).advance (index + 1))
    else balancedEnd? depth (c.advance 1)
termination_by c.rest.length

theorem balancedEnd?_cons {depth : Nat} {c : Cursor} {b : UInt8} {rest : Bytes}
    (hc : c.rest = b :: rest) :
    balancedEnd? depth c =
      if opens b then balancedEnd? (depth + 1) (c.advance 1)
      else if closes b then
        if depth ≤ 1 then some (c.advance 1) else balancedEnd? (depth - 1) (c.advance 1)
      else if b = Byte.quote then
        match Record.closingQuote? 0 (c.advance 1).rest with
        | none => none
        | some index => balancedEnd? depth ((c.advance 1).advance (index + 1))
      else balancedEnd? depth (c.advance 1) := by
  rw [balancedEnd?]
  split
  next hnil => cases hc.symm.trans hnil
  next hcons =>
    cases hc.symm.trans hcons
    rfl

theorem reaches_of_balancedEnd? {depth : Nat} {c d : Cursor} (h : balancedEnd? depth c = some d) :
    c.Reaches d ∧ d.rest.length < c.rest.length := by
  fun_induction balancedEnd? depth c with
  | case1 => cases h
  | case2 depth c b rest hc hlt _ ih =>
    have := ih h
    exact ⟨(Cursor.reaches_advance_one hc).trans this.1, by omega⟩
  | case3 depth c b rest hc hlt _ _ _ =>
    cases h
    exact ⟨Cursor.reaches_advance_one hc, hlt⟩
  | case4 depth c b rest hc hlt _ _ _ ih =>
    have := ih h
    exact ⟨(Cursor.reaches_advance_one hc).trans this.1, by omega⟩
  | case5 => cases h
  | case6 depth c rest index hq hc hlt _ _ hlt' ih =>
    have := ih h
    have hadv := Cursor.reaches_advance (c.advance 1)
      (Nat.succ_le_of_lt (Nat.zero_add _ ▸ (Record.lt_length_of_closingQuote? hq).2))
    exact ⟨(Cursor.reaches_advance_one hc).trans (hadv.trans this.1), by omega⟩
  | case7 depth c b rest hc hlt _ _ _ ih =>
    have := ih h
    exact ⟨(Cursor.reaches_advance_one hc).trans this.1, by omega⟩

end Intake.Stream
