import Intake.Proofs.Record.Grammar.Quoted
import Intake.Proofs.Record.Steady.Decode

/-!
# How many bytes a string lacks

A reader that asks for more says how many bytes it lacks at least, and a caller may wait for that many.
Where a string is cut off between two lexemes the number is one. Within an escape it is larger, since
the digits of a code unit are four.

The number is a bound as long as the escape that is cut off has to be completed. Behind an escaped high
surrogate this is not so: the second half of a pair may follow, but the string may as well go on with
anything else, or end. The number is that of the second half all the same, and `EndsInPair` says where.
Everywhere else fewer bytes than were asked for leave the string open.
-/

namespace Intake.Record

open Quoted (Body Ending isHighSurrogate codeUnit lowHalf lexeme unicodeLexeme read steady_lexeme)

/-! ### Inputs that end within a pair -/

/-- An escape of the first half of a surrogate pair. -/
def HighEscape (bs : Bytes) : Prop :=
  ∃ code digits, bs = Byte.backslash :: Byte.letterU :: digits ∧ HexUnit code digits ∧
    isHighSurrogate code

/-- The input ends behind the first half of a pair, or behind the backslash that follows it, and so many
bytes would make up the second half. -/
inductive EndsInPair (combineSurrogates : Bool) : Nat → Bytes → Prop
  | escape {front high : Bytes} (hcombine : combineSurrogates) (h : HighEscape high) :
      EndsInPair combineSurrogates 6 (front ++ high)
  | backslash {front high : Bytes} (hcombine : combineSurrogates) (h : HighEscape high) :
      EndsInPair combineSurrogates 5 (front ++ (high ++ [Byte.backslash]))

variable {cs : Bool} {n : Nat}

theorem EndsInPair.append_left {bs : Bytes} (h : EndsInPair cs n bs) (front : Bytes) :
    EndsInPair cs n (front ++ bs) := by
  cases h with
  | escape hcs hhigh =>
      rw [← List.append_assoc]
      exact .escape hcs hhigh
  | backslash hcs hhigh =>
      rw [← List.append_assoc]
      exact .backslash hcs hhigh

theorem not_endsInPair_of_le {bs : Bytes} (h : n ≤ 4) : ¬ EndsInPair cs n bs := by
  intro hpair
  cases hpair <;> exact absurd h (by decide)

theorem EndsInPair.of_reaches {c d : Cursor} (h : EndsInPair cs n d.rest) (hcd : c.Reaches d) :
    EndsInPair cs n c.rest := by
  obtain ⟨front, hc, -⟩ := hcd
  rw [hc]
  exact h.append_left front

theorem highEscape_of_codeUnit {digits : Bytes} {code : Nat} (h : codeUnit digits = .code code)
    (hhigh : isHighSurrogate code) :
    HighEscape (Byte.backslash :: Byte.letterU :: digits.take 4) :=
  ⟨code, _, rfl, (hexUnit_of_codeUnit h).1, hhigh⟩

/-! ### Strings -/

namespace Quoted

/-- The body at `c` has no closing quote. -/
def Unclosed (cs : Bool) (c : Cursor) : Prop :=
  ∀ after, (read cs c).ending ≠ .closed after

variable {c : Cursor} {more : Bytes}

theorem unclosed_of_cut (h : lexeme cs c.rest = .cut n) : Unclosed cs c := by
  intro after
  rw [read_eq, h]
  intro hend
  cases hend

theorem unclosed_of_malformed (h : lexeme cs c.rest = .malformed) : Unclosed cs c := by
  intro after
  rw [read_eq, h]
  intro hend
  cases hend

theorem unclosed_of_piece {text : Bytes} {width : Nat} (h : lexeme cs c.rest = .piece text width)
    (hrest : Unclosed cs (c.advance width)) : Unclosed cs c := by
  intro after
  rw [read_eq, h]
  exact hrest after

theorem codeUnit_of_short {digits : Bytes} (h : codeUnit digits = .short n) (hlt : more.length < n) :
    codeUnit (digits ++ more) = .malformed ∨ ∃ m, codeUnit (digits ++ more) = .short m := by
  have hlen : (digits ++ more).length < 4 := by
    unfold codeUnit at h
    split at h
    · cases h
    next values hvalues =>
      have hvalues := length_of_hexDigits hvalues
      split at h
      · cases h
        rw [List.length_take] at hvalues
        rw [List.length_append]
        omega
      · cases h
  unfold codeUnit
  cases hvalues : ((digits ++ more).take 4).mapM Byte.hexDigit? with
  | none => exact .inl rfl
  | some values =>
      have hle := length_of_hexDigits hvalues
      rw [List.length_take] at hle
      exact .inr ⟨_, if_pos (by omega)⟩

theorem unclosed_of_unit {digits : Bytes} (hc : c.rest = Byte.backslash :: Byte.letterU :: digits)
    (h : codeUnit digits = .malformed ∨ ∃ m, codeUnit digits = .short m) : Unclosed cs c := by
  rcases h with h | ⟨m, h⟩
  · exact unclosed_of_malformed (by rw [hc, lexeme_unit, unicodeLexeme, h])
  · exact unclosed_of_cut (n := m) (by rw [hc, lexeme_unit, unicodeLexeme, h])

theorem lowHalf_eq_short {bs : Bytes} (h : lowHalf bs = .short n) :
    bs = [] ∧ n = 6 ∨ bs = [Byte.backslash] ∧ n = 5 ∨
      ∃ digits, bs = Byte.backslash :: Byte.letterU :: digits ∧ codeUnit digits = .short n := by
  unfold lowHalf at h
  split at h
  · cases h
    exact .inl ⟨rfl, rfl⟩
  · split at h
    next hb =>
      cases h
      exact .inr (.inl ⟨by rw [hb], rfl⟩)
    · cases h
  next b u digits =>
    split at h
    next hmark =>
      obtain ⟨rfl, rfl⟩ := hmark
      refine .inr (.inr ⟨digits, rfl, ?_⟩)
      split at h
      · split at h <;> cases h
      next m hshort =>
        cases h
        exact hshort
      · cases h
    · cases h

/-- A second half that has begun with its mark leaves the string open as long as too few bytes follow. If
these spoil it, they spoil an escape all the same. -/
theorem unclosed_of_half {digits tail : Bytes} {code : Nat} (hcs : cs)
    (hc : c.rest = Byte.backslash :: Byte.letterU :: digits) (hcode : codeUnit digits = .code code)
    (hhigh : isHighSurrogate code) (htail : digits.drop 4 = Byte.backslash :: Byte.letterU :: tail)
    (h : codeUnit tail = .malformed ∨ ∃ m, codeUnit tail = .short m) : Unclosed cs c := by
  rcases h with hspoilt | ⟨m, hstill⟩
  · have hlone : lowHalf (digits.drop 4) = .missing := by
      rw [htail, lowHalf_of_malformed hspoilt]
    have hpiece : lexeme cs c.rest = .piece (Utf8.encode code) 6 := by
      rw [hc, lexeme_unit, unicodeLexeme_of_lone hcode fun _ _ => hlone]
    have hrest : (c.advance 6).rest = Byte.backslash :: Byte.letterU :: tail := by
      rw [Cursor.advance_rest, hc]
      exact htail
    exact unclosed_of_piece hpiece (unclosed_of_unit hrest (.inl hspoilt))
  · have hhalf : lowHalf (digits.drop 4) = .short m := by
      rw [htail, lowHalf_of_short hstill]
    have hcut : lexeme cs c.rest = .cut m := by
      rw [hc, lexeme_unit, unicodeLexeme_of_short hcode hcs hhigh hhalf]
    exact unclosed_of_cut hcut

/-- The ways in which a lexeme is cut off. -/
inductive CutLexeme (cs : Bool) (n : Nat) : Bytes → Prop
  | next {bs : Bytes} (hn : n = 1) : CutLexeme cs n bs
  | unit {digits : Bytes} (h : codeUnit digits = .short n) :
      CutLexeme cs n (Byte.backslash :: Byte.letterU :: digits)
  | half {digits : Bytes} {code : Nat} (hcode : codeUnit digits = .code code) (hcs : cs)
      (hhigh : isHighSurrogate code) (h : lowHalf (digits.drop 4) = .short n) :
      CutLexeme cs n (Byte.backslash :: Byte.letterU :: digits)

theorem cutLexeme_of_unicodeLexeme {digits : Bytes} (h : unicodeLexeme cs digits = .cut n) :
    CutLexeme cs n (Byte.backslash :: Byte.letterU :: digits) := by
  unfold unicodeLexeme at h
  split at h
  · cases h
  next m hshort =>
    cases h
    exact .unit hshort
  next code hcode =>
    split at h
    next hpair =>
      obtain ⟨hcs, hhigh⟩ := Bool.and_eq_true_iff.1 hpair
      split at h
      · cases h
      next m hhalf =>
        cases h
        exact .half hcode hcs hhigh hhalf
      · cases h
    · cases h

theorem cutLexeme_of_lexeme {bs : Bytes} (h : lexeme cs bs = .cut n) : CutLexeme cs n bs := by
  unfold lexeme at h
  split at h
  · cases h
    exact .next rfl
  next b rest =>
    split at h
    · cases h
    split at h
    next hb =>
      unfold escapeLexeme at h
      split at h
      · cases h
        exact .next rfl
      next u digits =>
        split at h
        next hu =>
          rw [hb, hu]
          exact cutLexeme_of_unicodeLexeme h
        · cases h
    · cases h

/-- Fewer bytes than a lexeme lacks leave the string open, unless the input ends within a pair. -/
theorem endsInPair_or_unclosed_of_lexeme (h : lexeme cs c.rest = .cut n) (hlt : more.length < n)
    (hne : more ≠ []) : EndsInPair cs n c.rest ∨ Unclosed cs (c.append more) := by
  have happend : (c.append more).rest = c.rest ++ more := rfl
  have hcut := cutLexeme_of_lexeme h
  generalize c.rest = bs at happend hcut
  cases hcut with
  | next hn => exact absurd (List.eq_nil_of_length_eq_zero (by omega)) hne
  | unit hshort => exact .inr (unclosed_of_unit happend (codeUnit_of_short hshort hlt))
  | @half digits code hcode hcs hhigh hhalf =>
      have hescape := highEscape_of_codeUnit hcode hhigh
      have hfour : digits = digits.take 4 ++ digits.drop 4 := (List.take_append_drop 4 digits).symm
      rcases lowHalf_eq_short hhalf with ⟨htail, rfl⟩ | ⟨htail, rfl⟩ | ⟨tail, htail, hshort⟩
      · have hpair : EndsInPair cs 6 ([] ++ Byte.backslash :: Byte.letterU :: digits.take 4) :=
          .escape hcs hescape
        rw [htail, List.append_nil] at hfour
        rw [hfour]
        exact .inl hpair
      · have hpair : EndsInPair cs 5
            ([] ++ (Byte.backslash :: Byte.letterU :: digits.take 4 ++ [Byte.backslash])) :=
          .backslash hcs hescape
        rw [htail] at hfour
        rw [hfour]
        exact .inl hpair
      · have hsteady := steady_codeUnit digits
        rw [hcode] at hsteady
        cases hsteady with
        | code hsame hlength =>
            have hdrop : (digits ++ more).drop 4 =
                Byte.backslash :: Byte.letterU :: (tail ++ more) := by
              rw [List.drop_append_of_le_length hlength, htail, List.cons_append, List.cons_append]
            exact .inr (unclosed_of_half hcs happend (hsame more) hhigh hdrop
              (codeUnit_of_short hshort hlt))

/-- Fewer bytes than a body lacks leave it open, unless the input ends within a pair. -/
theorem endsInPair_or_unclosed (h : (read cs c).ending = .cut n) (hlt : more.length < n) :
    EndsInPair cs n c.rest ∨ Unclosed cs (c.append more) := by
  by_cases hne : more = []
  · refine .inr fun after hend => ?_
    rw [hne, Cursor.append_nil, h] at hend
    cases hend
  fun_induction read cs c with
  | case1 => cases h
  | case2 c text width hc _ body ih =>
      have hlex := steady_lexeme cs c.rest
      rw [hc] at hlex
      cases hlex with
      | piece hmore hle =>
          refine (ih h).imp (fun hpair => hpair.of_reaches (c.reaches_advance hle)) fun hopen => ?_
          rw [← Cursor.append_advance hle] at hopen
          exact unclosed_of_piece (hmore more) hopen
      | run =>
          -- The run reaches the end of the input, where one byte is asked for.
          have hend : (c.advance c.rest.length).rest = [] := by simp
          have hone : body.ending = .cut 1 := congrArg Body.ending (read_of_rest_eq_nil hend)
          cases hone.symm.trans h
          exact absurd (List.eq_nil_of_length_eq_zero (by omega)) hne
  | case3 c missing hc =>
      cases h
      exact endsInPair_or_unclosed_of_lexeme hc hlt hne
  | case4 => cases h

/-! ### Where the number is too large -/

theorem not_unclosed_of_quote (h : c.rest = [Byte.quote]) : ¬ Unclosed cs c := by
  intro hopen
  refine hopen (c.advance 1) ?_
  rw [read_eq, h]
  rfl

theorem not_unclosed_of_piece {text : Bytes} {width : Nat} (h : lexeme cs c.rest = .piece text width)
    (hrest : ¬ Unclosed cs (c.advance width)) : ¬ Unclosed cs c := by
  intro hopen
  refine hrest fun after hend => hopen after ?_
  rw [read_eq, h]
  exact hend

theorem not_unclosed_of_escaped_quote (h : c.rest = [Byte.backslash, Byte.quote, Byte.quote]) :
    ¬ Unclosed cs c := by
  have hpiece : lexeme cs c.rest = .piece [Byte.quote] 2 := by
    rw [h]
    rfl
  have hrest : (c.advance 2).rest = [Byte.quote] := by
    rw [Cursor.advance_rest, h]
    rfl
  exact not_unclosed_of_piece hpiece (not_unclosed_of_quote hrest)

/-- Behind the first half of a pair a string may go on with what is no second half. -/
theorem not_unclosed_of_half {digits : Bytes} {code : Nat}
    (hc : c.rest = Byte.backslash :: Byte.letterU :: digits) (hcode : codeUnit digits = .code code)
    (hhalf : lowHalf (digits.drop 4 ++ more) = .missing)
    (hrest : ∀ d : Cursor, d.rest = digits.drop 4 ++ more → ¬ Unclosed cs d) :
    ¬ Unclosed cs (c.append more) := by
  have hsteady := steady_codeUnit digits
  rw [hcode] at hsteady
  cases hsteady with
  | code hsame hlength =>
      have hdrop : (digits ++ more).drop 4 = digits.drop 4 ++ more :=
        List.drop_append_of_le_length hlength
      have happend : (c.append more).rest = Byte.backslash :: Byte.letterU :: (digits ++ more) := by
        rw [Cursor.rest_append, hc, List.cons_append, List.cons_append]
      have hpiece : lexeme cs (c.append more).rest = .piece (Utf8.encode code) 6 := by
        rw [happend, lexeme_unit, unicodeLexeme_of_lone (hsame more) fun _ _ => by rw [hdrop, hhalf]]
      refine not_unclosed_of_piece hpiece (hrest _ ?_)
      rw [Cursor.advance_rest, happend]
      exact hdrop

theorem le_four_of_codeUnit {digits : Bytes} (h : codeUnit digits = .short n) : n ≤ 4 := by
  unfold codeUnit at h
  split at h
  · cases h
  · split at h
    · cases h
      exact Nat.sub_le _ _
    · cases h

/-- More than four bytes are missing only from a second half that the string can do without. -/
theorem exists_not_unclosed_of_lexeme (h : lexeme cs c.rest = .cut n) (hn : 4 < n) :
    ∃ more : Bytes, more.length < n ∧ ¬ Unclosed cs (c.append more) := by
  have hcut := cutLexeme_of_lexeme h
  generalize hc : c.rest = bs at hcut
  cases hcut with
  | next hone => omega
  | unit hshort =>
      have hle := le_four_of_codeUnit hshort
      omega
  | half hcode hcs hhigh hhalf =>
      rcases lowHalf_eq_short hhalf with ⟨htail, rfl⟩ | ⟨htail, rfl⟩ | ⟨tail, -, hshort⟩
      · refine ⟨[Byte.quote], by decide, ?_⟩
        refine not_unclosed_of_half hc hcode (by rw [htail]; rfl) fun d hd => ?_
        rw [htail] at hd
        exact not_unclosed_of_quote hd
      · refine ⟨[Byte.quote, Byte.quote], by decide, ?_⟩
        refine not_unclosed_of_half hc hcode (by rw [htail]; rfl) fun d hd => ?_
        rw [htail] at hd
        exact not_unclosed_of_escaped_quote hd
      · have hle := le_four_of_codeUnit hshort
        omega

theorem exists_not_unclosed (h : (read cs c).ending = .cut n) (hn : 4 < n) :
    ∃ more : Bytes, more.length < n ∧ ¬ Unclosed cs (c.append more) := by
  fun_induction read cs c with
  | case1 => cases h
  | case2 c text width hc _ body ih =>
      have hlex := steady_lexeme cs c.rest
      rw [hc] at hlex
      cases hlex with
      | piece hmore hle =>
          obtain ⟨more, hlt, hclosed⟩ := ih h
          rw [← Cursor.append_advance hle] at hclosed
          exact ⟨more, hlt, not_unclosed_of_piece (hmore more) hclosed⟩
      | run =>
          have hend : (c.advance c.rest.length).rest = [] := by simp
          have hone : body.ending = .cut 1 := congrArg Body.ending (read_of_rest_eq_nil hend)
          cases hone.symm.trans h
          omega
  | case3 c missing hc =>
      cases h
      exact exists_not_unclosed_of_lexeme hc hn
  | case4 => cases h

/-- The number of bytes that a body is said to lack is no bound exactly where the input ends within
a pair. -/
theorem endsInPair_iff (h : (read cs c).ending = .cut n) : EndsInPair cs n c.rest ↔
    ∃ more : Bytes, more.length < n ∧ ¬ Unclosed cs (c.append more) := by
  constructor
  · exact fun hpair => exists_not_unclosed h (Nat.lt_of_not_le fun hle =>
      not_endsInPair_of_le hle hpair)
  · rintro ⟨more, hlt, hclosed⟩
    exact (endsInPair_or_unclosed h hlt).resolve_right hclosed

/-! ### Decoding a string -/

theorem cut_of_decode {arena : Arena} (h : decode cs arena c = .error (.incomplete n)) :
    (read cs c).ending = .cut n := by
  unfold decode at h
  dsimp only at h
  split at h
  · cases h
  · split at h
    · cases h
    next hend =>
      cases h
      exact hend
    · cases h

theorem missing_pos {arena : Arena} (h : decode cs arena c = .error (.incomplete n)) : 0 < n := by
  have hquote := closingQuote?_of_read cs c
  rw [cut_of_decode h] at hquote
  exact hquote.1

/-- A string is not decoded with fewer bytes than it lacks, unless the input ends within a pair. -/
theorem endsInPair_or_not_decoded {arena : Arena} (h : decode cs arena c = .error (.incomplete n))
    (hlt : more.length < n) :
    EndsInPair cs n c.rest ∨ ∀ found, decode cs arena (c.append more) ≠ .ok found := by
  refine (endsInPair_or_unclosed (cut_of_decode h) hlt).imp_right fun hopen found hfound => ?_
  unfold decode at hfound
  dsimp only at hfound
  split at hfound
  · cases hfound
  · split at hfound
    next after hend => exact hopen after hend
    · cases hfound
    · cases hfound

end Quoted

end Intake.Record
