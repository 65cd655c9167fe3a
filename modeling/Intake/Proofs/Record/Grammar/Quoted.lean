import Intake.Proofs.Arena
import Intake.Proofs.Record.Grammar.Token

/-!
# Strings are in the grammar

A body that is read to its closing quote spells what its lexemes stand for. A lexeme is a run of plain
bytes or one unit, so the spelling of the rest is continued by as many units as the lexeme has.
-/

namespace Intake

theorem Arena.view_finish {a b : Arena} {bytes : Bytes} (h : b.contents = a.contents ++ bytes) :
    b.view (b.finish a.cursor) = bytes ∨ b.view (b.finish a.cursor) = [] := by
  rw [view]
  cases hget : b.get? (b.finish a.cursor) with
  | none => exact .inr rfl
  | some found =>
      obtain ⟨-, -, hfound⟩ := get?_eq_some_iff.1 hget
      have hcursor : b.cursor = a.cursor + bytes.length := by
        rw [← length_contents, h, List.length_append, length_contents]
      rw [finish, Span.between, h, List.drop_left' (length_contents a), hcursor,
        Nat.add_sub_cancel_left, List.take_length] at hfound
      exact .inl hfound

namespace Record

open Quoted (isPlain isHighSurrogate isLowSurrogate combine unescape codeUnit lowHalf lexeme
  escapeLexeme unicodeLexeme)

/-! ### Units -/

theorem hexUnit_of_codeUnit {bs : Bytes} {code : Nat} (h : codeUnit bs = .code code) :
    HexUnit code (bs.take 4) ∧ (bs.take 4).length = 4 := by
  unfold codeUnit at h
  split at h
  · cases h
  next digits hdigits =>
    split at h
    · cases h
    next hfour =>
      cases h
      have hlength := Quoted.length_of_hexDigits hdigits
      have hle : (bs.take 4).length ≤ 4 := List.length_take_le ..
      have hexact : digits.length = 4 := by omega
      obtain ⟨a, digits, rfl⟩ := List.exists_cons_of_length_eq_add_one hexact
      obtain ⟨b, digits, rfl⟩ := List.exists_cons_of_length_eq_add_one (Nat.succ.inj hexact)
      obtain ⟨c, digits, rfl⟩ :=
        List.exists_cons_of_length_eq_add_one (Nat.succ.inj (Nat.succ.inj hexact))
      obtain ⟨d, rfl⟩ := List.length_eq_one_iff.1 (Nat.succ.inj (Nat.succ.inj (Nat.succ.inj hexact)))
      exact ⟨⟨a, b, c, d, hdigits, by simp⟩, by omega⟩

theorem escape_of_lowHalf {bs : Bytes} {low : Nat} (h : lowHalf bs = .code low) :
    ∃ digits, bs = Byte.backslash :: Byte.letterU :: digits ∧ codeUnit digits = .code low ∧
      isLowSurrogate low := by
  unfold lowHalf at h
  split at h
  · cases h
  · split at h <;> cases h
  next b u digits =>
    split at h
    next hmark =>
      obtain ⟨rfl, rfl⟩ := hmark
      split at h
      next value hcode =>
        split at h
        next hlow =>
          cases h
          exact ⟨digits, rfl, hcode, hlow⟩
        · cases h
      · cases h
      · cases h
    · cases h

theorem not_startsLow_of_lowHalf {body rest : Bytes} (h : lowHalf (body ++ rest) = .missing) :
    ¬ StartsLow body := by
  rintro ⟨code, digits, tail, rfl, hcode, hlow⟩
  rw [List.cons_append, List.cons_append, List.append_assoc,
    Quoted.lowHalf_of_code (hcode.codeUnit _), if_pos hlow] at h
  cases h

theorem Spells.run {cs : Bool} {text body run : Bytes} (hrun : ∀ b ∈ run, isPlain b)
    (h : Spells cs text body) : Spells cs (run ++ text) (run ++ body) := by
  induction run with
  | nil => exact h
  | cons b run ih =>
      obtain ⟨hq, hb⟩ : b ≠ Byte.quote ∧ b ≠ Byte.backslash := by
        simpa [isPlain] using hrun b (List.mem_cons_self ..)
      exact .plain hq hb (ih fun b hb => hrun b (List.mem_cons_of_mem _ hb))

/-! ### Lexemes -/

/-- A lexeme in front of a body adds what it stands for. -/
def Continues (cs : Bool) (bs text : Bytes) (width : Nat) : Prop :=
  ∀ {more body rest : Bytes}, bs.drop width = body ++ Byte.quote :: rest → Spells cs more body →
    ∃ front, bs = front ++ (body ++ Byte.quote :: rest) ∧ Spells cs (text ++ more) (front ++ body)

variable {cs : Bool} {bs text : Bytes} {width : Nat}

theorem continues_of_unicodeLexeme {digits : Bytes}
    (h : unicodeLexeme cs digits = .piece text width) :
    Continues cs (Byte.backslash :: Byte.letterU :: digits) text width := by
  intro more body rest hdrop hbody
  unfold unicodeLexeme at h
  split at h
  · cases h
  · cases h
  next value hcode =>
  obtain ⟨hunit, hfour⟩ := hexUnit_of_codeUnit hcode
  have hsplit : digits = digits.take 4 ++ digits.drop 4 := (List.take_append_drop 4 digits).symm
  have hsingle (hdrop : digits.drop 4 = body ++ Byte.quote :: rest)
      (hlone : cs → isHighSurrogate value → lowHalf (digits.drop 4) = .missing) :
      ∃ front, Byte.backslash :: Byte.letterU :: digits = front ++ (body ++ Byte.quote :: rest) ∧
        Spells cs (Utf8.encode value ++ more) (front ++ body) := by
    refine ⟨Byte.backslash :: Byte.letterU :: digits.take 4, ?_, .unit hunit ?_ hbody⟩
    · rw [List.cons_append, List.cons_append, ← hdrop, ← hsplit]
    · intro hcs hhigh
      have hmissing := hlone hcs hhigh
      rw [hdrop] at hmissing
      exact not_startsLow_of_lowHalf hmissing
  split at h
  next hpair =>
    obtain ⟨hcs, hhigh⟩ := Bool.and_eq_true_iff.1 hpair
    split at h
    next low hhalf =>
      obtain ⟨rfl, rfl⟩ := Quoted.Lexeme.piece.inj h
      obtain ⟨lowDigits, hmark, hlow, hlow'⟩ := escape_of_lowHalf hhalf
      obtain ⟨hunit', hfour'⟩ := hexUnit_of_codeUnit hlow
      have hbody' : lowDigits.drop 4 = body ++ Byte.quote :: rest := calc
        lowDigits.drop 4 = (Byte.backslash :: Byte.letterU :: lowDigits).drop 6 := rfl
        _ = digits.drop 10 := by rw [← hmark, List.drop_drop]
        _ = body ++ Byte.quote :: rest := hdrop
      refine ⟨Byte.backslash :: Byte.letterU :: (digits.take 4 ++ Byte.backslash :: Byte.letterU ::
        lowDigits.take 4), ?_, ?_⟩
      · rw [← hbody']
        simp only [List.cons_append, List.append_assoc, List.take_append_drop]
        rw [← hmark, ← hsplit]
      · simpa using Spells.pair hcs hunit hhigh hunit' hlow' hbody
    · cases h
    next hmissing =>
      cases h
      exact hsingle hdrop fun _ _ => hmissing
  next hlone =>
    cases h
    refine hsingle hdrop fun hcs hhigh => absurd ?_ hlone
    rw [hcs, hhigh]
    rfl

theorem continues_of_lexeme (h : lexeme cs bs = .piece text width) : Continues cs bs text width := by
  unfold lexeme at h
  split at h
  · cases h
  next b tail =>
  split at h
  · cases h
  split at h
  next hb =>
    subst hb
    unfold escapeLexeme at h
    split at h
    · cases h
    next b digits =>
    split at h
    next hu =>
      subst hu
      exact continues_of_unicodeLexeme h
    next hu =>
      cases h
      intro more body rest hdrop hbody
      exact ⟨[Byte.backslash, b], congrArg (Byte.backslash :: b :: ·) hdrop, .escape hu hbody⟩
  · cases h
    intro more body rest hdrop hbody
    refine ⟨(b :: tail).takeWhile isPlain, ?_, hbody.run fun _ hb =>
      List.all_eq_true.1 List.all_takeWhile _ hb⟩
    rw [← hdrop]
    exact (List.prefix_iff_eq_append.1 (List.takeWhile_prefix isPlain)).symm

/-! ### Bodies and strings -/

theorem quote_of_close (h : lexeme cs bs = .close) : ∃ rest, bs = Byte.quote :: rest := by
  unfold lexeme at h
  split at h
  · cases h
  next b rest =>
  split at h
  next hq => exact ⟨rest, by rw [hq]⟩
  split at h
  · unfold escapeLexeme at h
    split at h
    · cases h
    split at h
    · unfold unicodeLexeme at h
      repeat' split at h
      all_goals cases h
    · cases h
  · cases h

theorem spells_of_read {c after : Cursor} (h : (Quoted.read cs c).ending = .closed after) :
    ∃ body, c.rest = body ++ Byte.quote :: after.rest ∧
      Spells cs (Quoted.read cs c).pieces.flatten body := by
  fun_induction Quoted.read cs c with
  | case1 c hc =>
      cases h
      obtain ⟨rest, hrest⟩ := quote_of_close hc
      exact ⟨[], by rw [hrest, Cursor.rest_advance_one hrest, List.nil_append], .nil⟩
  | case2 c text width hc _ body ih =>
      obtain ⟨tail, htail, hspells⟩ := ih h
      obtain ⟨front, hfront, hmore⟩ := continues_of_lexeme hc htail hspells
      exact ⟨front ++ tail, by rw [hfront, List.append_assoc], hmore⟩
  | case3 => cases h
  | case4 => cases h

/-- A string that is read is written to the arena as the text it stands for. -/
theorem quotes_of_quoted {arena written : Arena} {span : Span} {c d : Cursor}
    (h : quoted cs arena c = .ok ((span, written), d)) :
    ∃ text bs, c.skipSpace.rest = bs ++ d.rest ∧ Quotes cs text bs ∧
      span = written.finish arena.cursor ∧ written.contents = arena.contents ++ text := by
  unfold quoted at h
  split at h
  · cases h
  next body hexpect =>
  split at h
  · cases h
  next hdecode =>
  cases h
  simp only [Quoted.decode] at hdecode
  split at hdecode
  · cases hdecode
  next hext =>
  split at hdecode
  next hend =>
    cases hdecode
    obtain ⟨raw, hraw, hspells⟩ := spells_of_read hend
    refine ⟨_, Byte.quote :: (raw ++ [Byte.quote]), ?_, ⟨raw, hspells, rfl⟩, rfl,
      Arena.contents_extendAll hext⟩
    rw [rest_of_expect hexpect, hraw]
    simp
  · cases hdecode
  · cases hdecode

end Record

end Intake
