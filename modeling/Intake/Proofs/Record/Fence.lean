import Intake.Proofs.Cursor
import Intake.Record.Skip
import Intake.Stream.Balanced

/-!
# Fences

A fence knows of the places of one input how many brackets are open around them, and promises that
each of these brackets is closed further on. Readers do not look at it: it is what a proof knows of an
input from elsewhere, and it is given by how it moves with the bytes that are read. Nothing is
inside of `Fence.nowhere`, which is the fence of an input about which nothing is known.
-/

namespace Intake.Record

open Intake.Stream (opens closes)

/-- A byte that neither opens nor closes anything. -/
def isInert (b : UInt8) : Bool :=
  !opens b && !closes b && b != Byte.quote

theorem isInert_iff {b : UInt8} :
    isInert b ↔ (b ≠ Byte.openBrace ∧ b ≠ Byte.openSquare) ∧
      (b ≠ Byte.closeBrace ∧ b ≠ Byte.closeSquare) ∧ b ≠ Byte.quote := by
  simp [isInert, opens, closes, and_assoc]

theorem isInert_of_isSpace {b : UInt8} (h : Byte.isSpace b) : isInert b := by
  simp only [Byte.isSpace, Bool.or_eq_true, beq_iff_eq] at h
  rcases h with ((rfl | rfl) | rfl) | rfl <;> rfl

theorem isInert_of_isDigit {b : UInt8} (h : Byte.isDigit b) : isInert b := by
  refine isInert_iff.2 ⟨⟨?_, ?_⟩, ⟨?_, ?_⟩, ?_⟩ <;> rintro rfl <;> exact absurd h (by decide)

structure Fence where
  /-- So many brackets are open at this place, and they are closed further on. -/
  inside : Nat → Cursor → Prop
  rest_ne_nil : ∀ {k c}, inside (k + 1) c → c.rest ≠ []
  enter : ∀ {k c b rest}, inside (k + 1) c → c.rest = b :: rest → opens b →
    inside (k + 2) (c.advance 1)
  leave : ∀ {k c b rest}, inside (k + 1) c → c.rest = b :: rest → closes b →
    inside k (c.advance 1)
  string : ∀ {k c rest}, inside (k + 1) c → c.rest = Byte.quote :: rest →
    ∃ index, closingQuote? 0 rest = some index ∧ inside (k + 1) (c.advance (index + 2))
  inert : ∀ {k c b rest}, inside (k + 1) c → c.rest = b :: rest → isInert b →
    inside (k + 1) (c.advance 1)
  word : ∀ {k c b rest}, inside (k + 1) c → c.rest = b :: rest → !opens b → !endsWord b →
    inside (k + 1) (c.skipWhile fun b => !endsWord b)

namespace Fence

def nowhere : Fence where
  inside _ _ := False
  rest_ne_nil h := h.elim
  enter h := h.elim
  leave h := h.elim
  string h := h.elim
  inert h := h.elim
  word h := h.elim

variable {F : Fence} {k : Nat} {c : Cursor}

theorem inside_skipWhile {p : UInt8 → Bool} (hp : ∀ b, p b → isInert b)
    (h : F.inside (k + 1) c) : F.inside (k + 1) (c.skipWhile p) := by
  obtain ⟨pos, rest⟩ := c
  induction rest generalizing pos with
  | nil => exact h
  | cons b rest ih =>
      cases hb : p b with
      | false =>
          rw [Cursor.skipWhile_of_neg rfl hb]
          exact h
      | true =>
          rw [Cursor.skipWhile_cons rfl hb]
          exact ih _ (F.inert h rfl (hp b hb))

theorem inside_skipSpace (h : F.inside (k + 1) c) : F.inside (k + 1) c.skipSpace :=
  inside_skipWhile (fun _ => isInert_of_isSpace) h

end Fence

end Intake.Record
