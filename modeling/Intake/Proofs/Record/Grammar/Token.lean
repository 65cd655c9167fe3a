import Intake.Proofs.Decimal
import Intake.Proofs.Record.Grammar
import Intake.Proofs.Record.Rendering.Quoted

/-!
# Tokens are in the grammar

What a reader of a token has read when it succeeds. Each statement splits the bytes in front of the
reader into the token, which is in its language, and the bytes that are left.
-/

namespace Intake.Record

variable {c d : Cursor}

theorem exists_gap (c : Cursor) : ∃ gap, Gap gap ∧ c.rest = gap ++ c.skipSpace.rest :=
  ⟨c.rest.takeWhile Byte.isSpace, fun _ hb => List.all_eq_true.1 List.all_takeWhile _ hb,
    List.takeWhile_append_dropWhile.symm⟩

theorem rest_of_expect {b : UInt8} {u : Unit} (h : expect b c = .ok (u, d)) :
    c.skipSpace.rest = b :: d.rest := by
  cases hc : c.skipSpace.rest with
  | nil =>
      rw [expect_of_nil hc] at h
      cases h
  | cons a rest =>
      rw [expect_of_cons hc] at h
      split at h
      next hab =>
        cases h
        rw [hab, Cursor.rest_advance_one hc]
      · cases h

/-! ### Strings as they are written -/

theorem split_of_closingQuote? {bs : Bytes} {start index : Nat}
    (h : closingQuote? start bs = some index) :
    ∃ body rest, bs = body ++ Byte.quote :: rest ∧ index = start + body.length ∧ Sealed body := by
  fun_induction closingQuote? start bs with
  | case1 => cases h
  | case2 start rest =>
      cases h
      exact ⟨[], rest, rfl, rfl, .nil⟩
  | case3 => cases h
  | case4 start b rest hq ih =>
      obtain ⟨body, tail, rfl, hindex, hbody⟩ := ih h
      refine ⟨Byte.backslash :: b :: body, tail, rfl, ?_, .escape b hbody⟩
      simp only [List.length_cons]
      omega
  | case5 start b rest hq hb ih =>
      obtain ⟨body, tail, rfl, hindex, hbody⟩ := ih h
      refine ⟨b :: body, tail, rfl, ?_, .plain hq hb hbody⟩
      simp only [List.length_cons]
      omega

theorem rest_of_rawString {key : Bytes} (h : rawString c = .ok (key, d)) :
    c.skipSpace.rest = Byte.quote :: (key ++ Byte.quote :: d.rest) ∧ Sealed key := by
  unfold rawString at h
  split at h
  · cases h
  next body he =>
    split at h
    · cases h
    next index hindex =>
      cases h
      obtain ⟨key, rest, hbody, rfl, hkey⟩ := split_of_closingQuote? hindex
      have hrest : (body.advance (0 + key.length + 1)).rest = rest := by
        rw [Nat.zero_add, ← Cursor.advance_advance]
        exact Cursor.rest_advance_one (Cursor.rest_advance hbody)
      rw [hrest, rest_of_expect he, hbody, Nat.zero_add, List.take_left]
      exact ⟨rfl, hkey⟩

/-! ### Numbers -/

/-- What stands in front of the digits is the sign that the number is read with. -/
theorem numeral_of_sign (c : Cursor) : ∃ front, c.rest = front ++ (sign c).2.rest ∧
    ∀ digits, Digits digits →
      Numeral (if (sign c).1 then -(Decimal.value digits : Int) else Decimal.value digits)
        (front ++ digits) := by
  cases hc : c.rest with
  | nil =>
      simp only [sign, hc]
      exact ⟨[], rfl, fun _ => .bare⟩
  | cons b rest =>
      have hrest := Cursor.rest_advance_one hc
      by_cases hminus : b = Byte.minus
      · simp only [sign, hc, if_pos hminus, hrest]
        exact ⟨[b], rfl, fun _ hdigits => hminus ▸ .minus hdigits⟩
      by_cases hplus : b = Byte.plus
      · simp only [sign, hc, if_neg hminus, if_pos hplus, hrest]
        exact ⟨[b], rfl, fun _ hdigits => hplus ▸ .plus hdigits⟩
      · simp only [sign, hc, if_neg hminus, if_neg hplus]
        exact ⟨[], rfl, fun _ => .bare⟩

theorem numeral_of_integer {v : Int} (h : integer c = .ok (v, d)) :
    ∃ bs, c.skipSpace.rest = bs ++ d.rest ∧ Numeral v bs := by
  obtain ⟨front, hfront, hnumeral⟩ := numeral_of_sign c.skipSpace
  simp only [integer] at h
  split at h
  · cases h
  split at h
  · cases h
  next hne =>
  split at h
  · cases h
  next magnitude hbound =>
  cases h
  obtain ⟨rfl, -⟩ := (Decimal.bounded?_eq_some_iff (by decide)).1 hbound
  have hdigits : Digits ((sign c.skipSpace).2.rest.takeWhile Byte.isDigit) :=
    ⟨hne, fun _ hb => List.all_eq_true.1 List.all_takeWhile _ hb⟩
  refine ⟨_, ?_, hnumeral _ hdigits⟩
  rw [hfront, List.append_assoc]
  exact congrArg (front ++ ·) List.takeWhile_append_dropWhile.symm

theorem numeral_of_integerIn {low high v : Int} (h : integerIn low high c = .ok (v, d)) :
    (low ≤ v ∧ v ≤ high) ∧ ∃ bs, c.skipSpace.rest = bs ++ d.rest ∧ Numeral v bs := by
  unfold integerIn at h
  split at h
  · cases h
  next hi =>
    split at h
    next hrange =>
      cases h
      exact ⟨hrange, numeral_of_integer hi⟩
    · cases h

theorem timestampText_of_timestamp {v : Int} (h : timestamp c = .ok (v, d)) :
    ∃ bs, c.skipSpace.rest = bs ++ d.rest ∧ TimestampText bs := by
  obtain ⟨hrange, bs, hc, hv⟩ := numeral_of_integerIn h
  exact ⟨bs, hc, ⟨v, by omega⟩, hv⟩

theorem identifierText_of_identifier {n : Nat} (h : identifier c = .ok (n, d)) :
    ∃ bs, c.skipSpace.rest = bs ++ d.rest ∧ IdentifierText bs := by
  unfold identifier at h
  split at h
  · cases h
  next v after hi =>
    cases h
    obtain ⟨hrange, bs, hc, hv⟩ := numeral_of_integerIn hi
    have hnat : ((v.toNat : Nat) : Int) = v := Int.toNat_of_nonneg hrange.1
    refine ⟨bs, hc, ⟨v.toNat, ?_⟩, ?_⟩
    · omega
    · rw [hnat]
      exact hv

end Intake.Record
