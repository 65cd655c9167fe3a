import Intake.Proofs.Arena
import Intake.Proofs.Record.Rendering
import Intake.Proofs.Record.Steady.Quoted

/-!
# Reading a string that was rendered

The lexemes of a body are not its units: plain bytes in a row are one lexeme. What the two have in common
is what they stand for, so it is enough that a unit at the front of a body adds its own text to the
text of the rest.
-/

namespace Intake

theorem Utf8.length_encode_le (code : Nat) : (Utf8.encode code).length ≤ 4 := by
  unfold Utf8.encode
  split
  · simp
  split
  · simp
  split <;> simp

namespace Record

/-! ### Units -/

theorem HexUnit.length {code : Nat} {digits : Bytes} (h : HexUnit code digits) :
    digits.length = 4 := by
  obtain ⟨a, b, c, d, hdigits, -⟩ := h
  exact (Quoted.length_of_hexDigits hdigits).symm

theorem HexUnit.codeUnit {code : Nat} {digits : Bytes} (h : HexUnit code digits) (rest : Bytes) :
    Quoted.codeUnit (digits ++ rest) = .code code := by
  have hlength := h.length
  obtain ⟨a, b, c, d, hdigits, rfl⟩ := h
  simp only [Quoted.codeUnit, List.take_left' hlength, hdigits, List.length_cons, List.length_nil,
    List.foldl_cons, List.foldl_nil]
  simp

theorem isLowSurrogate_of_isHighSurrogate {code : Nat} (h : Quoted.isHighSurrogate code) :
    Quoted.isLowSurrogate code = false := by
  simp only [Quoted.isHighSurrogate, Quoted.isLowSurrogate, Bool.and_eq_true, decide_eq_true_eq,
    Bool.and_eq_false_iff, decide_eq_false_iff_not] at h ⊢
  omega

/-- A body that does not start with an escaped low surrogate is not taken for one. -/
theorem lowHalf_of_spells {cs : Bool} {text body : Bytes} (h : Spells cs text body)
    (hlow : ¬ StartsLow body) (rest : Bytes) :
    Quoted.lowHalf (body ++ Byte.quote :: rest) = .missing := by
  cases h with
  | nil => exact Quoted.lowHalf_of_ne (by decide) rest
  | plain _ hb => exact Quoted.lowHalf_of_ne hb _
  | escape hu => exact Quoted.lowHalf_of_escape hu _
  | @unit code digits text body hcode hlone =>
      have hnot : ¬ Quoted.isLowSurrogate code := fun hlow' =>
        hlow ⟨code, digits, body, rfl, hcode, hlow'⟩
      rw [List.cons_append, List.cons_append, List.append_assoc,
        Quoted.lowHalf_of_code (hcode.codeUnit _)]
      exact if_neg hnot
  | pair _ hhigh hhigh' =>
      rw [List.cons_append, List.cons_append, List.append_assoc,
        Quoted.lowHalf_of_code (hhigh.codeUnit _), isLowSurrogate_of_isHighSurrogate hhigh']
      rfl

/-! ### Bodies -/

namespace Quoted

variable {cs : Bool} {c : Cursor}

theorem read_of_piece {text : Bytes} {width : Nat} (h : lexeme cs c.rest = .piece text width) :
    read cs c = ⟨text :: (read cs (c.advance width)).pieces, (read cs (c.advance width)).ending⟩ := by
  rw [read_eq, h]

/-- A plain byte in front of a body adds itself to what the body stands for. -/
theorem read_of_plain {b : UInt8} {bs : Bytes} (hq : b ≠ Byte.quote) (hb : b ≠ Byte.backslash)
    (hc : c.rest = b :: bs) :
    (read cs c).ending = (read cs (c.advance 1)).ending ∧
      (read cs c).pieces.flatten = b :: (read cs (c.advance 1)).pieces.flatten := by
  have hplain : isPlain b = true := by simp [isPlain, hq, hb]
  have hlexeme : lexeme cs (b :: bs) = _ := lexeme_of_plain hq hb bs
  rw [List.takeWhile_cons_of_pos hplain, ← hc] at hlexeme
  have hnext := Cursor.rest_advance_one hc
  rw [read_of_piece hlexeme]
  cases bs with
  | nil => exact ⟨rfl, rfl⟩
  | cons b' bs =>
      by_cases hplain' : isPlain b'
      · have hq' : b' ≠ Byte.quote := by rintro rfl; exact absurd hplain' (by decide)
        have hb' : b' ≠ Byte.backslash := by rintro rfl; exact absurd hplain' (by decide)
        have hlexeme' : lexeme cs (b' :: bs) = _ := lexeme_of_plain hq' hb' bs
        rw [← hnext] at hlexeme'
        rw [read_of_piece hlexeme', hnext, Cursor.advance_advance, List.length_cons, Nat.add_comm 1]
        exact ⟨rfl, rfl⟩
      · rw [List.takeWhile_cons_of_neg hplain']
        exact ⟨rfl, rfl⟩

theorem read_of_close {rest : Bytes} (hc : c.rest = Byte.quote :: rest) :
    read cs c = ⟨[], .closed (c.advance 1)⟩ := by
  rw [read_eq, hc]
  rfl

end Quoted

/-- The body at `c` is closed behind `body` and stands for `text`. -/
structure ReadsAs (cs : Bool) (text body : Bytes) (c : Cursor) : Prop where
  ending : (Quoted.read cs c).ending = .closed (c.advance (body.length + 1))
  flatten : (Quoted.read cs c).pieces.flatten = text
  length_le : text.length ≤ body.length

theorem ReadsAs.piece {cs : Bool} {text body piece unit : Bytes} {c : Cursor}
    (h : ReadsAs cs text body (c.advance unit.length))
    (hlexeme : Quoted.lexeme cs c.rest = .piece piece unit.length) (hle : piece.length ≤ unit.length) :
    ReadsAs cs (piece ++ text) (unit ++ body) c where
  ending := by
    rw [Quoted.read_of_piece hlexeme, List.length_append]
    exact h.ending.trans (by rw [Cursor.advance_advance, Nat.add_assoc])
  flatten := by
    rw [Quoted.read_of_piece hlexeme, List.flatten_cons, h.flatten]
  length_le := by
    rw [List.length_append, List.length_append]
    exact Nat.add_le_add hle h.length_le

/-- A body that was rendered is read up to its quote, and stands for the text that it was rendered
from. -/
theorem readsAs_of_spells {cs : Bool} {text body : Bytes} (h : Spells cs text body) {c : Cursor}
    {rest : Bytes} (hc : c.rest = body ++ Byte.quote :: rest) : ReadsAs cs text body c := by
  induction h generalizing c with
  | nil =>
      rw [List.nil_append] at hc
      exact ⟨by rw [Quoted.read_of_close hc]; rfl, by rw [Quoted.read_of_close hc]; rfl, Nat.le_refl _⟩
  | @plain b text body hq hb h ih =>
      obtain ⟨hending, hflatten⟩ := Quoted.read_of_plain hq hb hc
      have hrest := ih (Cursor.rest_advance_one hc)
      refine ⟨hending.trans (hrest.ending.trans ?_), ?_, Nat.succ_le_succ hrest.length_le⟩
      · rw [Cursor.advance_advance, List.length_cons, Nat.add_comm 1]
      · rw [hflatten]
        exact congrArg _ hrest.flatten
  | @escape b text body hu h ih =>
      have hlexeme : Quoted.lexeme cs c.rest = .piece [Quoted.unescape b] 2 := by
        rw [hc]
        exact if_neg hu
      have hrest := ih (Cursor.rest_advance (show c.rest = [Byte.backslash, b] ++ _ from hc))
      exact hrest.piece hlexeme (by simp)
  | @unit code digits text body hcode hlone h ih =>
      have hfour := hcode.length
      have hunit : c.rest =
          Byte.backslash :: Byte.letterU :: digits ++ (body ++ Byte.quote :: rest) := by
        rw [hc]
        simp
      have hlexeme : Quoted.lexeme cs c.rest = .piece (Utf8.encode code) 6 := by
        rw [hunit, List.cons_append, List.cons_append, Quoted.lexeme_unit]
        refine Quoted.unicodeLexeme_of_lone (hcode.codeUnit _) fun hcs hhigh => ?_
        rw [List.drop_left' hfour, lowHalf_of_spells h (hlone hcs hhigh)]
      have hrest := ih (Cursor.rest_advance hunit)
      apply hrest.piece (hlexeme.trans (by simp [hfour]))
      exact Nat.le_trans (Utf8.length_encode_le code) (by simp [hfour])
  | @pair high low highDigits lowDigits text body hcombine hhigh hhigh' hlow hlow' h ih =>
      have hfour := hhigh.length
      have hfour' := hlow.length
      have hunit : c.rest = (Byte.backslash :: Byte.letterU :: (highDigits ++
          Byte.backslash :: Byte.letterU :: lowDigits)) ++ (body ++ Byte.quote :: rest) := by
        rw [hc]
        simp
      have hhalf : Quoted.lowHalf (Byte.backslash :: Byte.letterU ::
          (lowDigits ++ (body ++ Byte.quote :: rest))) = .code low :=
        (Quoted.lowHalf_of_code (hlow.codeUnit _)).trans (if_pos hlow')
      have hlexeme : Quoted.lexeme cs c.rest = .piece (Utf8.encode (Quoted.combine high low)) 12 := by
        rw [hunit, List.cons_append, List.cons_append, List.append_assoc, Quoted.lexeme_unit]
        apply Quoted.unicodeLexeme_of_pair (hhigh.codeUnit _) hcombine hhigh'
        rw [List.drop_left' hfour]
        exact hhalf
      have hwidth : (Byte.backslash :: Byte.letterU :: (highDigits ++
          Byte.backslash :: Byte.letterU :: lowDigits)).length = 12 := by
        simp [hfour, hfour']
      have hle := Utf8.length_encode_le (Quoted.combine high low)
      have hrest := (ih (Cursor.rest_advance hunit)).piece (hlexeme.trans (by rw [hwidth])) (by omega)
      simpa using hrest

/-! ### Strings -/

/-- A string that was rendered is written to the arena as the text it was rendered from, if there is
room for the rendering. -/
theorem quoted_of_quotes {cs : Bool} {text bs rest : Bytes} {c : Cursor} {arena : Arena}
    (h : Quotes cs text bs) (hc : c.skipSpace.rest = bs ++ rest)
    (hroom : arena.cursor + bs.length ≤ arena.capacity) :
    ∃ written, quoted cs arena c =
        .ok ((written.finish arena.cursor, written), c.skipSpace.advance bs.length) ∧
      written.contents = arena.contents ++ text ∧ written.capacity = arena.capacity ∧
      text.length ≤ bs.length := by
  obtain ⟨body, hspells, rfl⟩ := h
  have hcons : c.skipSpace.rest = Byte.quote :: (body ++ Byte.quote :: rest) := by
    rw [hc]
    simp
  have hbody : ReadsAs cs text body (c.skipSpace.advance 1) :=
    readsAs_of_spells hspells (Cursor.rest_advance_one hcons)
  have hlength : (Byte.quote :: (body ++ [Byte.quote])).length = body.length + 2 := by simp
  have hle := hbody.length_le
  rw [hlength] at hroom ⊢
  have hfits : arena.cursor + (Quoted.read cs (c.skipSpace.advance 1)).pieces.flatten.length ≤
      arena.capacity := by
    rw [hbody.flatten]
    omega
  obtain ⟨written, hwritten, hcontents, hcapacity⟩ := Arena.extendAll_of_le hfits
  rw [hbody.flatten] at hcontents
  refine ⟨written, ?_, hcontents, hcapacity, by omega⟩
  have hending : (Quoted.read cs (c.skipSpace.advance 1)).ending =
      .closed (c.skipSpace.advance (body.length + 2)) := by
    rw [hbody.ending, Cursor.advance_advance, Nat.add_comm 1]
  simp only [quoted_eq hcons, Quoted.decode, hwritten, hending]

end Record

end Intake
