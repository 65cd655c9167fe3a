import Intake.Proofs.Record.Steady

/-!
# The tokens of a record are steady

A token is told from the byte that ends it: a quote, or the first byte that cannot belong to a number.
Where the input ends before that byte, the readers ask for more.
-/

namespace Intake.Record

variable {F : Fence} {c : Cursor}

theorem expect_of_nil {b : UInt8} (h : c.skipSpace.rest = []) :
    expect b c = .error (.incomplete 1) := by
  simp only [expect, h]

theorem expect_of_cons {a b : UInt8} {rest : Bytes} (h : c.skipSpace.rest = a :: rest) :
    expect b c =
      if a = b then .ok ((), c.skipSpace.advance 1)
      else .error (.fault (.unexpectedByte a c.skipSpace.pos)) := by
  simp only [expect, h]

/-- A byte that is expected moves the fence like any byte. -/
theorem steady_expect {b : UInt8} {j : Nat}
    (hb : ∀ {k c rest}, F.inside (k + 1) c → c.rest = b :: rest → F.inside (k + j) (c.advance 1)) :
    Steady F 1 j (expect b) := by
  intro c
  cases hc : c.skipSpace.rest with
  | nil =>
      rw [expect_of_nil hc]
      exact .incomplete Nat.one_pos fun k hk => F.rest_ne_nil (F.inside_skipSpace hk) hc
  | cons a rest =>
      have hmore : ∀ more, expect b (c.append more) =
          if a = b then .ok ((), (c.skipSpace.advance 1).append more)
          else .error (.fault (.unexpectedByte a c.skipSpace.pos)) := fun more => by
        simp only [expect, Cursor.append_skipSpace hc, Cursor.rest_append, hc, List.cons_append,
          Cursor.append_advance_one hc, Cursor.pos_append]
      rw [expect_of_cons hc]
      by_cases hab : a = b
      · rw [if_pos hab]
        refine .ok (fun more => by rw [hmore, if_pos hab]) fun k hk => ?_
        exact hb (F.inside_skipSpace hk) (hab ▸ hc)
      · rw [if_neg hab]
        exact .fixed fun more => by rw [hmore, if_neg hab]

/-! ### Raw strings -/

theorem closingQuote?_append {bs : Bytes} {start index : Nat}
    (h : closingQuote? start bs = some index) (more : Bytes) :
    closingQuote? start (bs ++ more) = some index := by
  fun_induction closingQuote? start bs with
  | case1 => cases h
  | case2 start rest =>
      cases h
      rw [List.cons_append, closingQuote?_quote]
  | case3 => cases h
  | case4 start b rest hq ih =>
      rw [List.cons_append, List.cons_append, closingQuote?_escape]
      exact ih h
  | case5 start b rest hq hb ih =>
      rw [List.cons_append, closingQuote?_plain hq hb]
      exact ih h

theorem steady_rawString : Steady F 1 1 rawString := by
  intro c
  cases hc : c.skipSpace.rest with
  | nil =>
      simp only [rawString, expect_of_nil hc]
      exact .incomplete Nat.one_pos fun k hk => F.rest_ne_nil (F.inside_skipSpace hk) hc
  | cons a rest =>
      have hcmore : ∀ more, (c.append more).skipSpace.rest = a :: (rest ++ more) := fun more => by
        simp only [Cursor.append_skipSpace hc, Cursor.rest_append, hc, List.cons_append]
      by_cases ha : a = Byte.quote
      · subst ha
        have hbody : (c.skipSpace.advance 1).rest = rest := by
          simp only [Cursor.advance_rest, hc, List.drop_succ_cons, List.drop_zero]
        cases hq : closingQuote? 0 rest with
        | none =>
            simp only [rawString, expect_of_cons hc, if_true, hbody, hq]
            refine .incomplete Nat.one_pos fun k hk => ?_
            obtain ⟨index, hindex, -⟩ := F.string (F.inside_skipSpace hk) hc
            rw [hq] at hindex
            cases hindex
        | some index =>
            have hlt := (lt_length_of_closingQuote? hq).2
            rw [Nat.zero_add] at hlt
            simp only [rawString, expect_of_cons hc, if_true, hbody, hq]
            refine .ok (fun more => ?_) fun k hk => ?_
            · simp only [rawString, expect_of_cons (hcmore more), if_true,
                Cursor.append_skipSpace hc, Cursor.append_advance_one hc, Cursor.rest_append, hbody,
                closingQuote?_append hq, List.take_append_of_le_length (Nat.le_of_lt hlt),
                Cursor.append_advance (c := c.skipSpace.advance 1)
                  (n := index + 1) (by rw [hbody]; exact hlt)]
            · obtain ⟨index', hindex, hin⟩ := F.string (F.inside_skipSpace hk) hc
              rw [hq, Option.some.injEq] at hindex
              subst hindex
              rw [Cursor.advance_advance, Nat.add_comm 1 (index + 1)]
              exact hin
      · simp only [rawString, expect_of_cons hc, if_neg ha]
        exact .fixed fun more => by
          simp only [rawString, expect_of_cons (hcmore more), if_neg ha,
            Cursor.append_skipSpace hc, Cursor.pos_append]

/-! ### Numbers -/

theorem sign_append {c : Cursor} (h : c.rest ≠ []) (more : Bytes) :
    sign (c.append more) = ((sign c).1, (sign c).2.append more) := by
  obtain ⟨b, rest, hc⟩ := List.exists_cons_of_ne_nil h
  have hmore : (c.append more).rest = b :: (rest ++ more) := by
    rw [Cursor.rest_append, hc, List.cons_append]
  simp only [sign, hmore, hc, Cursor.append_advance_one hc]
  split
  · rfl
  · split <;> rfl

theorem inside_sign {k : Nat} (h : F.inside (k + 1) c) : F.inside (k + 1) (sign c).2 := by
  cases hc : c.rest with
  | nil => exact absurd hc (F.rest_ne_nil h)
  | cons b rest =>
      simp only [sign, hc]
      split
      next hb => exact F.inert h hc (hb ▸ rfl)
      · split
        next hb => exact F.inert h hc (hb ▸ rfl)
        · exact h

theorem rest_ne_nil_of_sign {c : Cursor} (h : (sign c).2.rest ≠ []) : c.rest ≠ [] := by
  intro hc
  simp only [sign, hc] at h
  exact h rfl

theorem steady_integer : Steady F 1 1 integer := by
  intro c
  by_cases hend : ((sign c.skipSpace).2.skipWhile Byte.isDigit).rest = []
  · simp only [integer, if_pos hend]
    refine .incomplete Nat.one_pos fun k hk => ?_
    exact F.rest_ne_nil (F.inside_skipWhile (fun _ => isInert_of_isDigit)
      (inside_sign (F.inside_skipSpace hk))) hend
  · have hfirst := Cursor.rest_ne_nil_of_skipWhile hend
    have hspace := rest_ne_nil_of_sign hfirst
    obtain ⟨b, rest, hb⟩ := List.exists_cons_of_ne_nil hspace
    have hmore : ∀ more, integer (c.append more) =
        match integer c with
        | .ok (value, after) => .ok (value, after.append more)
        | .error why => .error why := fun more => by
      have hne : ¬ ((sign c.skipSpace).2.skipWhile Byte.isDigit).rest ++ more = [] := by
        simp only [List.append_eq_nil_iff, hend, false_and, not_false_iff]
      simp only [integer, Cursor.append_skipSpace hb, sign_append hspace,
        Cursor.takeWhile_append hend, Cursor.append_skipWhile hend, Cursor.rest_append, if_neg hend,
        if_neg hne, Cursor.pos_append]
      split
      · rfl
      · split <;> rfl
    cases hc : integer c with
    | ok found =>
        refine .ok (fun more => by rw [hmore, hc]) fun k hk => ?_
        simp only [integer, if_neg hend] at hc
        split at hc
        · cases hc
        split at hc
        · cases hc
        · cases hc
          exact F.inside_skipWhile (fun _ => isInert_of_isDigit) (inside_sign (F.inside_skipSpace hk))
    | error why =>
        cases why with
        | fault e => exact .fixed fun more => by rw [hmore, hc]
        | incomplete missing =>
            simp only [integer, if_neg hend] at hc
            split at hc
            · cases hc
            split at hc <;> cases hc

theorem steady_integerIn (low high : Int) : Steady F 1 1 (integerIn low high) := by
  intro c
  refine (steady_integer c).check (fun pos value =>
    if low ≤ value ∧ value ≤ high then .ok value else .error (.numberOverflow pos)) fun more => ?_
  unfold integerIn
  cases integer (c.append more) with
  | error why => rfl
  | ok found =>
      dsimp only
      split <;> rfl

theorem steady_timestamp : Steady F 1 1 timestamp := steady_integerIn _ _

theorem steady_identifier : Steady F 1 1 identifier := by
  intro c
  refine (steady_integerIn 0 (Decimal.unsignedBound - 1) c).check
    (fun _ value => .ok value.toNat) fun more => ?_
  unfold identifier
  cases integerIn 0 (Decimal.unsignedBound - 1) (c.append more) <;> rfl

/-! ### Arrays and objects -/

namespace Scan

variable {σ : Type}

theorem steady_expect {b : UInt8} {j : Nat}
    (hb : ∀ {k c rest}, F.inside (k + 1) c → c.rest = b :: rest → F.inside (k + j) (c.advance 1)) :
    Steady F 1 j (expect b : Scan σ Unit) :=
  steady_read (Record.steady_expect hb)

theorem steady_open {b : UInt8} (hb : Stream.opens b) : Steady F 1 2 (expect b : Scan σ Unit) :=
  steady_expect fun hk hc => F.enter hk hc hb

theorem steady_rawString : Steady F 1 1 (rawString : Scan σ Bytes) :=
  steady_read Record.steady_rawString

theorem steady_elements {element : Scan σ Unit} (h : Steady F 1 1 element) :
    Steady F 1 1 (elements element) :=
  steady_bind (steady_open rfl) fun _ => (steady_list rfl h).deeper

/-- A member of an object: its key, and what `member` makes of the value. -/
def keyed (member : Bytes → Scan σ Unit) : Scan σ Unit := do
  let key ← rawString
  expect Byte.colon
  member key

theorem steady_keyed {member : Bytes → Scan σ Unit} (h : ∀ key, Steady F 1 1 (member key)) :
    Steady F 1 1 (keyed member) :=
  steady_bind steady_rawString fun key =>
    steady_bind (steady_expect fun hk hc => F.inert hk hc rfl) fun _ => h key

theorem steady_members {member : Bytes → Scan σ Unit} (h : ∀ key, Steady F 1 1 (member key)) :
    Steady F 1 1 (members member) :=
  steady_bind (steady_open rfl) fun _ => (steady_list rfl (steady_keyed h)).deeper

end Scan

end Intake.Record
