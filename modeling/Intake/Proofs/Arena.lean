import Intake.Arena

/-!
# Writing to an arena

A write changes neither the capacity of an arena nor what was written before.
-/

namespace Intake

namespace Arena

variable {a b : Arena}

theorem capacity_extend {bytes : Bytes} (h : a.extend bytes = .ok b) : b.capacity = a.capacity := by
  unfold extend at h
  split at h
  · cases h
    rfl
  · cases h

theorem capacity_extendAll {pieces : List Bytes} (h : a.extendAll pieces = .ok b) :
    b.capacity = a.capacity := by
  induction pieces generalizing a with
  | nil =>
      cases h
      rfl
  | cons piece pieces ih =>
      rw [extendAll_cons] at h
      split at h
      · cases h
      next hext => rw [ih h, capacity_extend hext]

theorem contents_extendAll {pieces : List Bytes} (h : a.extendAll pieces = .ok b) :
    b.contents = a.contents ++ pieces.flatten := by
  induction pieces generalizing a with
  | nil =>
      cases h
      exact (List.append_nil _).symm
  | cons piece pieces ih =>
      rw [extendAll_cons] at h
      split at h
      · cases h
      next hext => rw [ih h, contents_extend hext, List.flatten_cons, List.append_assoc]

theorem eq_of_contents (h : a.contents = b.contents) (hcapacity : a.capacity = b.capacity) : a = b := by
  obtain ⟨written, capacity, _⟩ := a
  obtain ⟨written', capacity', _⟩ := b
  obtain rfl : capacity = capacity' := hcapacity
  obtain rfl : written = written' := Array.toList_inj.1 h
  rfl

/-! ### What was written before -/

/-- The arena `b` has everything that `a` has, in the same place. -/
def Extends (a b : Arena) : Prop := a.contents <+: b.contents ∧ b.capacity = a.capacity

theorem Extends.refl (a : Arena) : a.Extends a := ⟨List.prefix_refl _, rfl⟩

theorem Extends.trans {c : Arena} (h : a.Extends b) (h' : b.Extends c) : a.Extends c :=
  ⟨h.1.trans h'.1, h'.2.trans h.2⟩

theorem Extends.cursor_le (h : a.Extends b) : a.cursor ≤ b.cursor := by
  have hle := h.1.length_le
  rwa [length_contents, length_contents] at hle

theorem extends_extend {bytes : Bytes} (h : a.extend bytes = .ok b) : a.Extends b :=
  ⟨⟨bytes, (contents_extend h).symm⟩, capacity_extend h⟩

theorem extends_extendAll {pieces : List Bytes} (h : a.extendAll pieces = .ok b) : a.Extends b :=
  ⟨⟨pieces.flatten, (contents_extendAll h).symm⟩, capacity_extendAll h⟩

theorem get?_of_extends (h : a.Extends b) {span : Span} {bytes : Bytes}
    (hget : a.get? span = some bytes) : b.get? span = some bytes := by
  obtain ⟨more, hmore⟩ := h.1
  obtain ⟨hpresent, hstop, hbytes⟩ := get?_eq_some_iff.1 hget
  have hle := h.1.length_le
  rw [length_contents, length_contents] at hle
  refine get?_eq_some_iff.2 ⟨hpresent, Nat.le_trans hstop hle, ?_⟩
  rw [← length_contents, Span.stop] at hstop
  rw [hbytes, ← hmore, List.drop_append_of_le_length (by omega),
    List.take_append_of_le_length (by rw [List.length_drop]; omega)]

theorem extendAll_of_le_remaining {pieces : List Bytes} (h : pieces.flatten.length ≤ a.remaining) :
    ∃ b, a.extendAll pieces = .ok b ∧ b.contents = a.contents ++ pieces.flatten ∧
      b.capacity = a.capacity := by
  induction pieces generalizing a with
  | nil => exact ⟨a, rfl, (List.append_nil _).symm, rfl⟩
  | cons piece pieces ih =>
      rw [List.flatten_cons, List.length_append, remaining] at h
      obtain ⟨c, hc⟩ : ∃ c, a.extend piece = .ok c := ⟨_, if_pos (by rw [remaining]; omega)⟩
      have hcontents := contents_extend hc
      have hcapacity := capacity_extend hc
      have hcursor : c.cursor = a.cursor + piece.length := by
        rw [← length_contents, hcontents, List.length_append, length_contents]
      obtain ⟨b, hb, hbcontents, hbcapacity⟩ := ih (a := c) (by rw [remaining]; omega)
      refine ⟨b, ?_, ?_, hbcapacity.trans hcapacity⟩
      · rw [extendAll_cons, hc]
        exact hb
      · rw [hbcontents, hcontents, List.flatten_cons, List.append_assoc]

theorem extendAll_of_le {pieces : List Bytes} (h : a.cursor + pieces.flatten.length ≤ a.capacity) :
    ∃ b, a.extendAll pieces = .ok b ∧ b.contents = a.contents ++ pieces.flatten ∧
      b.capacity = a.capacity :=
  extendAll_of_le_remaining (Nat.le_sub_of_add_le' h)

/-- What was written last is found again. -/
theorem get?_finish {bytes : Bytes} (h : b.contents = a.contents ++ bytes)
    (hcapacity : b.cursor ≤ b.capacity) : b.get? (b.finish a.cursor) = some bytes := by
  have hcursor : b.cursor = a.cursor + bytes.length := by
    rw [← length_contents, h, List.length_append, length_contents]
  have hmax := b.capacity_le
  refine get?_eq_some_iff.2 ⟨?_, ?_, ?_⟩
  · simp only [finish, Span.between, Span.isPresent, Span.isAbsent, Bool.not_eq_true',
      beq_eq_false_iff_ne]
    simp only [maxCapacity, Span.absentOffset] at hmax ⊢
    omega
  · simp only [finish, Span.between, Span.stop]
    omega
  · rw [h, finish, Span.between, List.drop_left' (length_contents a), hcursor,
      Nat.add_sub_cancel_left, List.take_length]

/-! ### Room -/

/-- What was written fits. -/
def Fits (a : Arena) : Prop := a.cursor ≤ a.capacity

theorem fits_empty {a : Arena} (h : a.contents = []) : a.Fits := by
  rw [Fits, ← length_contents, h]
  exact Nat.zero_le _

theorem room_of_extend {bytes : Bytes} (h : a.extend bytes = .ok b) : bytes.length ≤ a.remaining := by
  unfold extend at h
  split at h
  next hroom => exact hroom
  · cases h

theorem room_of_extendAll {pieces : List Bytes} (h : a.extendAll pieces = .ok b) :
    pieces.flatten.length ≤ a.remaining := by
  induction pieces generalizing a with
  | nil => exact Nat.zero_le _
  | cons piece pieces ih =>
      rw [extendAll_cons] at h
      split at h
      · cases h
      next hext =>
        have hpiece := room_of_extend hext
        have hrest := ih h
        have hcursor := congrArg List.length (contents_extend hext)
        have hcapacity := capacity_extend hext
        simp only [List.length_append, length_contents] at hcursor
        simp only [List.flatten_cons, List.length_append, remaining] at hpiece hrest ⊢
        omega

theorem Fits.extend {bytes : Bytes} (hfits : a.Fits) (h : a.extend bytes = .ok b) : b.Fits := by
  have hcursor := congrArg List.length (contents_extend h)
  have hcapacity := capacity_extend h
  have hroom := room_of_extend h
  rw [List.length_append, length_contents, length_contents] at hcursor
  unfold Fits remaining at *
  omega

theorem Fits.extendAll {pieces : List Bytes} (hfits : a.Fits) (h : a.extendAll pieces = .ok b) :
    b.Fits := by
  induction pieces generalizing a with
  | nil =>
      cases h
      exact hfits
  | cons piece pieces ih =>
      rw [extendAll_cons] at h
      split at h
      · cases h
      next hext => exact ih (hfits.extend hext) h

theorem Fits.lt_absentOffset (hfits : a.Fits) : a.cursor < Span.absentOffset := by
  have hmax := a.capacity_le
  simp only [Fits, maxCapacity, Span.absentOffset] at hfits hmax ⊢
  omega

end Arena

/-! ### Where spans lie -/

namespace Span

/-- One of the spans ends before the other begins. -/
def Apart (s t : Span) : Prop := s.stop ≤ t.offset ∨ t.stop ≤ s.offset

variable {s t : Span}

theorem Apart.symm (h : s.Apart t) : t.Apart s := Or.symm h

/-- The span is absent, or it lies in the first `cursor` bytes. -/
def Within (cursor : Nat) (s : Span) : Prop := s = absent ∨ s.stop ≤ cursor

theorem Within.mono {m n : Nat} (h : s.Within m) (hle : m ≤ n) : s.Within n :=
  h.imp_right fun hstop => Nat.le_trans hstop hle

/-- What was written later is apart from what was written before. -/
theorem Within.apart (h : s.Within t.offset) (ht : t.stop ≤ absentOffset) : s.Apart t := by
  rcases h with rfl | h
  · exact .inr ht
  · exact .inl h

theorem isPresent_of_lt (h : s.offset < absentOffset) : s.isPresent := by
  simp only [isPresent, isAbsent, Bool.not_eq_true', beq_eq_false_iff_ne]
  exact Nat.ne_of_lt h

theorem stop_between {start stop : Nat} (h : start ≤ stop) : (between start stop).stop = stop :=
  Nat.add_sub_of_le h

end Span

theorem Arena.isSome_get? {a : Arena} {span : Span} (hfits : a.Fits) (hle : span.stop ≤ a.cursor) :
    span.isPresent ∧ (a.get? span).isSome := by
  have hoffset : span.offset ≤ span.stop := Nat.le_add_right _ _
  have hlt := hfits.lt_absentOffset
  have hpresent := Span.isPresent_of_lt (s := span) (by omega)
  refine ⟨hpresent, ?_⟩
  rw [get?, if_pos ⟨hpresent, hle⟩]
  rfl

end Intake
