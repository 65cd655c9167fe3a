import Intake.Text.Decimal

/-!
# What digits spell

A reader of numbers gives the number that its input spells if that fits, and refuses everything else.
No input is read as a number that it does not spell.
-/

namespace Intake.Decimal

/-- A number that is written in digits alone, of which the first may be zeros. -/
def Spells (n : Nat) (bs : Bytes) : Prop :=
  bs ≠ [] ∧ (∀ b ∈ bs, Byte.isDigit b) ∧ value bs = n

/-- A number with a minus sign or none. -/
inductive SpellsSigned : Int → Bytes → Prop
  | plain {n : Nat} {bs : Bytes} (h : Spells n bs) : SpellsSigned n bs
  | minus {n : Nat} {bs : Bytes} (h : Spells n bs) : SpellsSigned (-n) (Byte.minus :: bs)

variable {bound n : Nat} {bs : Bytes}

theorem Spells.unique {m : Nat} (h : Spells n bs) (h' : Spells m bs) : n = m :=
  h.2.2.symm.trans h'.2.2

theorem not_spells_minus (n : Nat) (bs : Bytes) : ¬ Spells n (Byte.minus :: bs) := fun h =>
  absurd (h.2.1 Byte.minus (List.mem_cons_self ..)) (by decide)

theorem SpellsSigned.unique {v w : Int} (h : SpellsSigned v bs) (h' : SpellsSigned w bs) : v = w := by
  cases h with
  | plain h =>
      cases h' with
      | plain h' => rw [h.unique h']
      | minus h' => exact absurd h (not_spells_minus _ _)
  | minus h =>
      cases h' with
      | plain h' => exact absurd h' (not_spells_minus _ _)
      | minus h' => rw [h.unique h']

theorem bounded?_eq_some_iff (hbound : 0 < bound) :
    bounded? bound bs = some n ↔ value bs = n ∧ n < bound := by
  rw [bounded?_eq hbound, Option.ite_none_right_eq_some, Option.some.injEq]
  constructor
  · rintro ⟨hlt, rfl⟩
    exact ⟨rfl, hlt⟩
  · rintro ⟨rfl, hlt⟩
    exact ⟨hlt, rfl⟩

theorem plain?_eq_some_iff (hbound : 0 < bound) :
    plain? bound bs = some n ↔ Spells n bs ∧ n < bound := by
  rw [plain?, Option.ite_none_right_eq_some, bounded?_eq_some_iff hbound, List.all_eq_true]
  constructor
  · rintro ⟨⟨hne, hdigits⟩, hvalue, hlt⟩
    exact ⟨⟨hne, hdigits, hvalue⟩, hlt⟩
  · rintro ⟨⟨hne, hdigits, hvalue⟩, hlt⟩
    exact ⟨⟨hne, hdigits⟩, hvalue, hlt⟩

theorem unsigned?_eq_some_iff : unsigned? bs = some n ↔ Spells n bs ∧ n < unsignedBound :=
  plain?_eq_some_iff (by decide)

/-- A number with a minus sign is read as its magnitude, which may be larger by one. -/
theorem signed?_minus (bs : Bytes) :
    signed? (Byte.minus :: bs) = (plain? (signedBound + 1) bs).map fun n : Nat => -(n : Int) := by
  show Option.map _ (plain? (signedBound + 1) bs >>= fun n => pure (n : Int)) = _
  cases plain? (signedBound + 1) bs <;> rfl

theorem signed?_of_ne {b : UInt8} (hb : b ≠ Byte.minus) (bs : Bytes) :
    signed? (b :: bs) = (plain? signedBound (b :: bs)).map fun n : Nat => (n : Int) := by
  rw [signed?, if_neg hb]
  cases plain? signedBound (b :: bs) <;> rfl

theorem signed?_eq_some_iff {v : Int} : signed? bs = some v ↔
    SpellsSigned v bs ∧ -(signedBound : Int) ≤ v ∧ v < signedBound := by
  have hpos : 0 < signedBound := by decide
  cases bs with
  | nil =>
      constructor
      · intro h
        cases h
      · rintro ⟨h, -⟩
        cases h with
        | plain h => exact absurd rfl h.1
  | cons b bs =>
      by_cases hminus : b = Byte.minus
      · subst hminus
        rw [signed?_minus, Option.map_eq_some_iff]
        simp only [plain?_eq_some_iff (Nat.succ_pos signedBound)]
        constructor
        · rintro ⟨n, ⟨h, hlt⟩, rfl⟩
          exact ⟨.minus h, by omega, by omega⟩
        · rintro ⟨h, hlow, -⟩
          cases h with
          | plain h => exact absurd h (not_spells_minus _ _)
          | minus h => exact ⟨_, ⟨h, by omega⟩, rfl⟩
      · rw [signed?_of_ne hminus, Option.map_eq_some_iff]
        simp only [plain?_eq_some_iff hpos]
        constructor
        · rintro ⟨n, ⟨h, hlt⟩, rfl⟩
          exact ⟨.plain h, by omega, by omega⟩
        · rintro ⟨h, -, hhigh⟩
          cases h with
          | plain h => exact ⟨_, ⟨h, by omega⟩, rfl⟩
          | minus h => exact absurd rfl hminus

end Intake.Decimal
