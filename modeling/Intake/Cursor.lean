import Intake.Bytes

/-!
# Cursors

A cursor is a place in an input: how many bytes lie before it, and the bytes that follow. Readers
take a cursor and return a later one of the same input; `Reaches` says so, and it is what makes
their loops end.
-/

namespace Intake

/-- A place in an input. -/
structure Cursor where
  pos : Nat
  rest : Bytes
deriving DecidableEq

namespace Cursor

def start (input : Bytes) : Cursor := ⟨0, input⟩

/-- The place `pos` bytes into an input, with nothing left when that is past its end. -/
def within (input : Bytes) (pos : Nat) : Cursor := ⟨pos, input.drop pos⟩

def advance (c : Cursor) (n : Nat) : Cursor := ⟨c.pos + n, c.rest.drop n⟩

def toEnd (c : Cursor) : Cursor := ⟨c.pos + c.rest.length, []⟩

/-- The first place at which `p` fails. -/
def skipWhile (p : UInt8 → Bool) (c : Cursor) : Cursor :=
  ⟨c.pos + (c.rest.takeWhile p).length, c.rest.dropWhile p⟩

def skipSpace (c : Cursor) : Cursor := c.skipWhile Byte.isSpace

/-- The same place in the input continued by `more`. -/
def append (c : Cursor) (more : Bytes) : Cursor := ⟨c.pos, c.rest ++ more⟩

/-- The place `d` lies at or after `c` in the same input. -/
def Reaches (c d : Cursor) : Prop :=
  ∃ read, c.rest = read ++ d.rest ∧ d.pos = c.pos + read.length

namespace Reaches

theorem refl (c : Cursor) : c.Reaches c := ⟨[], rfl, rfl⟩

theorem trans {c d e : Cursor} (hcd : c.Reaches d) (hde : d.Reaches e) : c.Reaches e := by
  obtain ⟨r, hr, hrp⟩ := hcd
  obtain ⟨s, hs, hsp⟩ := hde
  exact ⟨r ++ s, by simp [hr, hs], by simp [hsp, hrp, Nat.add_assoc]⟩

theorem length_le {c d : Cursor} (h : c.Reaches d) : d.rest.length ≤ c.rest.length := by
  obtain ⟨r, hr, -⟩ := h
  simp [hr]

theorem pos_add_length {c d : Cursor} (h : c.Reaches d) :
    d.pos + d.rest.length = c.pos + c.rest.length := by
  obtain ⟨r, hr, hp⟩ := h
  simp [hr, hp, Nat.add_assoc]

end Reaches

theorem reaches_advance (c : Cursor) {n : Nat} (h : n ≤ c.rest.length) : c.Reaches (c.advance n) :=
  ⟨c.rest.take n, by simp [advance], by simp [advance, Nat.min_eq_left h]⟩

theorem reaches_skipWhile (p : UInt8 → Bool) (c : Cursor) : c.Reaches (c.skipWhile p) :=
  ⟨c.rest.takeWhile p, List.takeWhile_append_dropWhile.symm, rfl⟩

theorem reaches_skipSpace (c : Cursor) : c.Reaches c.skipSpace := reaches_skipWhile _ c

theorem reaches_advance_one {c : Cursor} {b : UInt8} {rest : Bytes} (h : c.rest = b :: rest) :
    c.Reaches (c.advance 1) :=
  c.reaches_advance (by simp [h])

theorem length_advance_one_lt {c : Cursor} {b : UInt8} {rest : Bytes} (h : c.rest = b :: rest) :
    (c.advance 1).rest.length < c.rest.length := by
  simp [advance, h]

end Cursor

end Intake
