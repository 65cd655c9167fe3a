import Intake.Cursor

/-!
# More input behind a cursor

A reader that stops before the end of the input does not see what follows. The lemmas here say so of
the steps that readers are made of: each of them commutes with `append`, as long as it leaves a byte
unread.
-/

namespace Intake.Cursor

@[simp] theorem pos_append (c : Cursor) (more : Bytes) : (c.append more).pos = c.pos := rfl

@[simp] theorem rest_append (c : Cursor) (more : Bytes) : (c.append more).rest = c.rest ++ more := rfl

@[simp] theorem append_nil (c : Cursor) : c.append [] = c := by
  rw [append, List.append_nil]

@[simp] theorem append_start (input more : Bytes) :
    (start input).append more = start (input ++ more) := rfl

@[simp] theorem advance_pos (c : Cursor) (n : Nat) : (c.advance n).pos = c.pos + n := rfl

@[simp] theorem advance_rest (c : Cursor) (n : Nat) : (c.advance n).rest = c.rest.drop n := rfl

theorem advance_advance (c : Cursor) (m n : Nat) : (c.advance m).advance n = c.advance (m + n) := by
  simp only [advance, List.drop_drop, Nat.add_assoc]

theorem rest_advance {c : Cursor} {bs rest : Bytes} (h : c.rest = bs ++ rest) :
    (c.advance bs.length).rest = rest := by
  rw [advance_rest, h, List.drop_left]

theorem rest_advance_one {c : Cursor} {b : UInt8} {rest : Bytes} (h : c.rest = b :: rest) :
    (c.advance 1).rest = rest :=
  rest_advance (show c.rest = [b] ++ rest from h)

theorem reaches_advance_append {c : Cursor} {bs rest : Bytes} (h : c.rest = bs ++ rest) :
    c.Reaches (c.advance bs.length) :=
  c.reaches_advance (by rw [h, List.length_append]; omega)

theorem append_advance {c : Cursor} {n : Nat} (h : n ≤ c.rest.length) (more : Bytes) :
    (c.append more).advance n = (c.advance n).append more := by
  simp only [append, advance, List.drop_append_of_le_length h]

theorem append_advance_one {c : Cursor} {b : UInt8} {rest : Bytes} (h : c.rest = b :: rest)
    (more : Bytes) : (c.append more).advance 1 = (c.advance 1).append more :=
  append_advance (by simp [h]) more

theorem length_takeWhile_ne {p : UInt8 → Bool} {c : Cursor} (h : (c.skipWhile p).rest ≠ []) :
    (c.rest.takeWhile p).length ≠ c.rest.length := by
  change c.rest.dropWhile p ≠ [] at h
  intro he
  apply h
  have hsum := congrArg List.length (List.takeWhile_append_dropWhile (p := p) (l := c.rest))
  rw [List.length_append] at hsum
  exact List.eq_nil_of_length_eq_zero (by omega)

theorem takeWhile_append {p : UInt8 → Bool} {c : Cursor} (h : (c.skipWhile p).rest ≠ [])
    (more : Bytes) : (c.rest ++ more).takeWhile p = c.rest.takeWhile p := by
  rw [List.takeWhile_append, if_neg (length_takeWhile_ne h)]

theorem append_skipWhile {p : UInt8 → Bool} {c : Cursor} (h : (c.skipWhile p).rest ≠ [])
    (more : Bytes) : (c.append more).skipWhile p = (c.skipWhile p).append more := by
  have hne : ¬ (c.rest.dropWhile p).isEmpty := by
    change c.rest.dropWhile p ≠ [] at h
    simpa [List.isEmpty_iff] using h
  simp only [append, skipWhile, List.takeWhile_append, List.dropWhile_append,
    if_neg (length_takeWhile_ne h), if_neg hne]

theorem rest_ne_nil_of_skipWhile {p : UInt8 → Bool} {c : Cursor} (h : (c.skipWhile p).rest ≠ []) :
    c.rest ≠ [] := by
  intro hc
  rw [skipWhile, hc] at h
  exact h rfl

theorem append_skipSpace {c : Cursor} {b : UInt8} {rest : Bytes} (h : c.skipSpace.rest = b :: rest)
    (more : Bytes) : (c.append more).skipSpace = c.skipSpace.append more :=
  append_skipWhile (h ▸ List.cons_ne_nil b rest) more

theorem skipWhile_cons {p : UInt8 → Bool} {c : Cursor} {b : UInt8} {rest : Bytes}
    (hc : c.rest = b :: rest) (hb : p b) : c.skipWhile p = (c.advance 1).skipWhile p := by
  simp only [skipWhile, advance, hc, List.takeWhile_cons_of_pos hb, List.dropWhile_cons_of_pos hb,
    List.length_cons, List.drop_succ_cons, List.drop_zero, mk.injEq, and_true]
  omega

theorem skipWhile_of_neg {p : UInt8 → Bool} {c : Cursor} {b : UInt8} {rest : Bytes}
    (hc : c.rest = b :: rest) (hb : p b = false) : c.skipWhile p = c := by
  obtain ⟨pos, _⟩ := c
  subst hc
  simp [skipWhile, hb]

theorem skipWhile_of_append {p : UInt8 → Bool} {c : Cursor} {bs rest : Bytes} {b : UInt8}
    (h : ∀ b ∈ bs, p b) (hb : p b = false) (hc : c.rest = bs ++ b :: rest) :
    c.skipWhile p = c.advance bs.length := by
  simp only [skipWhile, advance, hc, List.takeWhile_append_of_pos h, List.dropWhile_append_of_pos h,
    List.takeWhile_cons_of_neg (ne_true_of_eq_false hb), List.dropWhile_cons_of_neg
    (ne_true_of_eq_false hb), List.append_nil, List.drop_left]

theorem takeWhile_append_of_stops {p : UInt8 → Bool} {bs rest : Bytes} (h : ∀ b ∈ bs, p b)
    (hstops : ∀ b ∈ rest.head?, p b = false) : (bs ++ rest).takeWhile p = bs := by
  rw [List.takeWhile_append_of_pos h]
  cases rest with
  | nil => rw [List.takeWhile_nil, List.append_nil]
  | cons b rest =>
      rw [List.takeWhile_cons_of_neg (ne_true_of_eq_false (hstops b rfl)), List.append_nil]

theorem skipWhile_of_stops {p : UInt8 → Bool} {c : Cursor} {bs rest : Bytes} (h : ∀ b ∈ bs, p b)
    (hstops : ∀ b ∈ rest.head?, p b = false) (hc : c.rest = bs ++ rest) :
    c.skipWhile p = c.advance bs.length := by
  have htake := takeWhile_append_of_stops h hstops
  have hdrop : (bs ++ rest).dropWhile p = rest := by
    have hsplit := List.takeWhile_append_dropWhile (p := p) (l := bs ++ rest)
    rw [htake] at hsplit
    exact List.append_cancel_left hsplit
  simp only [skipWhile, advance, hc, htake, hdrop, List.drop_left]

theorem skipWhile_of_nil {p : UInt8 → Bool} {c : Cursor} (hc : c.rest = []) :
    c.skipWhile p = c := by
  obtain ⟨pos, _⟩ := c
  subst hc
  rfl

theorem skipSpace_skipSpace (c : Cursor) : c.skipSpace.skipSpace = c.skipSpace := by
  cases hc : c.skipSpace.rest with
  | nil => exact skipWhile_of_nil hc
  | cons b rest =>
      have hhead := List.head?_dropWhile_not Byte.isSpace c.rest
      change c.rest.dropWhile Byte.isSpace = b :: rest at hc
      rw [hc] at hhead
      exact skipWhile_of_neg hc hhead

end Intake.Cursor
