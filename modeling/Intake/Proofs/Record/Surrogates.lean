import Intake.Proofs.Checked.Quoted
import Intake.Proofs.Record.Meaning
import Intake.Proofs.Text.Utf8

/-!
# Which strings are text

Where the body of a string is text in UTF-8, what it means is text as well, but for one thing: an escape
can name a surrogate, which is no character. So it is text just when each surrogate of the body is one
half of a pair, and pairs are combined.

The body and its meaning are read side by side. A backslash is ASCII, so no character is open in front
of an escape, and an escaped byte leaves open what the byte itself does. An encoded surrogate is refused
whatever comes after it.
-/

namespace Intake.Record

open Quoted (isHighSurrogate isLowSurrogate combine unescape)
open Utf8 (Readable Due IsScalar)

variable {cs : Bool} {symbols : List Symbol} {body : Bytes}

/-! ### Surrogates without their other half -/

/-- The last unit is an escaped high surrogate. -/
def EndsHigh (symbols : List Symbol) : Prop :=
  ∃ high, symbols.getLast? = some (.code high) ∧ isHighSurrogate high

/-- No surrogate is left on its own: right behind each high one comes a low one, and right in front of
each low one a high one. Where pairs are not combined, there is no surrogate. -/
structure NoneAlone (combineSurrogates : Bool) (symbols : List Symbol) : Prop where
  high : ∀ front {back code}, symbols = front ++ .code code :: back → isHighSurrogate code →
    combineSurrogates ∧ BeginsLow back
  low : ∀ front {back code}, symbols = front ++ .code code :: back → isLowSurrogate code →
    combineSurrogates ∧ EndsHigh front

section NoneAlone

variable {first : List Symbol} {code low : Nat}

theorem endsHigh_append_iff (hfirst : ¬ EndsHigh first) :
    EndsHigh (first ++ symbols) ↔ EndsHigh symbols := by
  rw [EndsHigh, List.getLast?_append, EndsHigh]
  cases symbols.getLast? with
  | some last => rfl
  | none => exact iff_of_false hfirst fun ⟨_, hlast, _⟩ => nomatch hlast

theorem BeginsLow.append (h : BeginsLow symbols) (later : List Symbol) :
    BeginsLow (symbols ++ later) := by
  obtain ⟨low, rest, rfl, hlow⟩ := h
  exact ⟨low, rest ++ later, rfl, hlow⟩

theorem split_of_append {front back : List Symbol} {s : Symbol}
    (h : first ++ symbols = front ++ s :: back) :
    (∃ tail, first = front ++ s :: tail ∧ back = tail ++ symbols) ∨
      ∃ tail, front = first ++ tail ∧ symbols = tail ++ s :: back := by
  rcases List.append_eq_append_iff.1 h with ⟨tail, hfront, hrest⟩ | ⟨tail, hfirst, hrest⟩
  · exact .inr ⟨tail, hfront, hrest⟩
  · cases tail with
    | nil => exact .inr ⟨[], by rw [hfirst, List.append_nil, List.append_nil], hrest.symm⟩
    | cons t tail =>
        obtain ⟨rfl, hback⟩ := List.cons.inj hrest
        exact .inl ⟨tail, hfirst, hback⟩

/-- Behind units that leave none alone and wait for no second half, the rest is on its own. -/
theorem noneAlone_append_iff (first : List Symbol) (hnone : NoneAlone cs first) (hfirst : ¬ EndsHigh first) :
    NoneAlone cs (first ++ symbols) ↔ NoneAlone cs symbols := by
  constructor
  · intro h
    refine ⟨fun front {back code} hsplit => ?_, fun front {back code} hsplit hlow => ?_⟩
    · exact h.high (first ++ front) (by rw [hsplit, List.append_assoc])
    · have hends := h.low (first ++ front) (by rw [hsplit, List.append_assoc]) hlow
      rwa [endsHigh_append_iff hfirst] at hends
  · intro h
    refine ⟨fun front {back code} hsplit hhigh => ?_, fun front {back code} hsplit hlow => ?_⟩
    · rcases split_of_append hsplit with ⟨tail, hin, rfl⟩ | ⟨tail, rfl, hin⟩
      · exact (hnone.high front hin hhigh).imp_right (·.append symbols)
      · exact h.high tail hin hhigh
    · rcases split_of_append hsplit with ⟨tail, hin, rfl⟩ | ⟨tail, rfl, hin⟩
      · exact hnone.low front hin hlow
      · exact (h.low tail hin hlow).imp_right (endsHigh_append_iff hfirst).2

theorem not_noneAlone_of_low (hlow : isLowSurrogate code) : ¬ NoneAlone cs (.code code :: symbols) := by
  intro h
  obtain ⟨-, high, hlast, -⟩ := h.low [] rfl hlow
  cases hlast

theorem not_noneAlone_of_high (hhigh : isHighSurrogate code) (hlone : cs → ¬ BeginsLow symbols) :
    ¬ NoneAlone cs (.code code :: symbols) := by
  intro h
  obtain ⟨hcs, hbegins⟩ := h.high [] rfl hhigh
  exact hlone hcs hbegins

theorem eq_of_singleton {s t : Symbol} {front back : List Symbol} (h : [s] = front ++ t :: back) :
    t = s :=
  List.mem_singleton.1 (h ▸ List.mem_append_right _ (List.mem_cons_self ..))

theorem noneAlone_cons_iff {s : Symbol}
    (hs : ∀ code, s = .code code → isHighSurrogate code = false ∧ isLowSurrogate code = false) :
    NoneAlone cs (s :: symbols) ↔ NoneAlone cs symbols := by
  refine noneAlone_append_iff [s] ⟨fun front _ _ hsplit hhigh => ?_, fun front _ _ hsplit hlow => ?_⟩ ?_
  · rw [(hs _ (eq_of_singleton hsplit).symm).1] at hhigh
    cases hhigh
  · rw [(hs _ (eq_of_singleton hsplit).symm).2] at hlow
    cases hlow
  · rintro ⟨high, hlast, hhigh⟩
    rw [(hs high (Option.some.inj hlast)).1] at hhigh
    cases hhigh

theorem not_isHighSurrogate_of_isLowSurrogate (h : isLowSurrogate code) : ¬ isHighSurrogate code :=
  fun hhigh => Bool.eq_false_iff.1 (isLowSurrogate_of_isHighSurrogate hhigh) h

theorem noneAlone_pair_iff (hhigh : isHighSurrogate code) (hlow : isLowSurrogate low) :
    NoneAlone true (.code code :: .code low :: symbols) ↔ NoneAlone true symbols := by
  have hlow' : ¬ isHighSurrogate low := not_isHighSurrogate_of_isLowSurrogate hlow
  refine noneAlone_append_iff [.code code, .code low] ⟨?_, ?_⟩ ?_
  · intro front back unit hsplit hunit
    cases front with
    | nil => exact ⟨rfl, low, [], (List.cons.inj hsplit).2.symm, hlow⟩
    | cons s front =>
        cases eq_of_singleton (List.cons.inj hsplit).2
        exact absurd hunit hlow'
  · intro front back unit hsplit hunit
    rcases front with _ | ⟨s, _ | ⟨t, front⟩⟩
    · cases hsplit
      exact absurd hhigh (not_isHighSurrogate_of_isLowSurrogate hunit)
    · cases hsplit
      exact ⟨rfl, code, rfl, hhigh⟩
    · exact absurd (List.cons.inj (List.cons.inj hsplit).2).2.symm
        (List.append_ne_nil_of_right_ne_nil _ (List.cons_ne_nil _ _))
  · rintro ⟨high, hlast, hhigh'⟩
    cases hlast
    exact hlow' hhigh'

theorem noneAlone_nil (cs : Bool) : NoneAlone cs [] := by
  constructor <;> simp

end NoneAlone

/-! ### Reading both sides -/

/-- An escaped byte stands for ASCII if it is ASCII, and else for itself. -/
theorem unescape_of_ascii {b : UInt8} (hb : b < 0x80) : unescape b < 0x80 := by
  unfold unescape
  split
  · decide
  split
  · decide
  split
  · decide
  split
  · decide
  split
  · decide
  · exact hb

theorem unescape_of_not_ascii {b : UInt8} (hb : ¬ b < 0x80) : unescape b = b := by
  have hne {letter : UInt8} (hletter : letter < 0x80) : b ≠ letter := fun h => hb (h ▸ hletter)
  rw [unescape, if_neg (hne (by decide)), if_neg (hne (by decide)), if_neg (hne (by decide)),
    if_neg (hne (by decide)), if_neg (hne (by decide))]

theorem ascii_of_hexDigit? {b : UInt8} {n : Nat} (h : Byte.hexDigit? b = some n) : b < 0x80 := by
  simp only [Byte.hexDigit?, Byte.isDigit, Bool.and_eq_true, decide_eq_true_eq] at h
  repeat' split at h
  next hd => exact Std.lt_of_le_of_lt hd.2 (by decide)
  next hd => exact Std.lt_of_le_of_lt hd.2 (by decide)
  next hd => exact Std.lt_of_le_of_lt hd.2 (by decide)
  · cases h

theorem readable_hexDigits_iff {bs rest : Bytes} {digits : List Nat}
    (h : bs.mapM Byte.hexDigit? = some digits) :
    Readable none (bs ++ rest) ↔ Readable none rest := by
  induction bs generalizing digits with
  | nil => rfl
  | cons b bs ih =>
      rw [List.mapM_cons] at h
      obtain ⟨n, hn, h⟩ := Option.bind_eq_some_iff.1 h
      obtain ⟨ns, hns, -⟩ := Option.bind_eq_some_iff.1 h
      rw [List.cons_append, Utf8.readable_ascii_iff (ascii_of_hexDigit? hn), ih hns]

section Escape

variable {pending : Option Utf8.Pending} {code : Nat} {b : UInt8} {digits : Bytes}

theorem readable_of_escape (hdue : Due pending)
    (h : Readable pending (Byte.backslash :: body)) : pending = none ∧ Readable none body := by
  obtain rfl := Utf8.eq_none_of_ascii hdue (by decide) h
  exact ⟨rfl, (Utf8.readable_ascii_iff (by decide)).1 h⟩

theorem readable_of_unit (hcode : HexUnit code digits) (hdue : Due pending)
    (h : Readable pending (Byte.backslash :: Byte.letterU :: (digits ++ body))) :
    pending = none ∧ Readable none body := by
  obtain ⟨hpending, hrest⟩ := readable_of_escape hdue h
  obtain ⟨_, _, _, _, hdigits, -⟩ := hcode
  exact ⟨hpending, (readable_hexDigits_iff hdigits).1 ((Utf8.readable_ascii_iff (by decide)).1 hrest)⟩

theorem readable_unescape_iff {text : Bytes} {P : Prop}
    (h : ∀ {pending}, Due pending → Readable pending body → (Readable pending text ↔ P))
    (hbody : Readable none (b :: body)) : Readable none (unescape b :: text) ↔ P := by
  by_cases hb : b < 0x80
  · rw [Utf8.readable_ascii_iff hb] at hbody
    rw [Utf8.readable_ascii_iff (unescape_of_ascii hb)]
    exact h Utf8.due_none hbody
  · rw [unescape_of_not_ascii hb]
    rw [Utf8.readable_cons_iff] at hbody ⊢
    rw [and_iff_right hbody.1]
    exact h (Utf8.due_step none b) hbody.2

theorem kind_of_unit (h : code < 0x10000) :
    IsScalar code ∧ isHighSurrogate code = false ∧ isLowSurrogate code = false ∨
      (isHighSurrogate code ∨ isLowSurrogate code) ∧ 0xD800 ≤ code ∧ code < 0xE000 := by
  simp only [isHighSurrogate, isLowSurrogate, IsScalar, Bool.and_eq_true, Bool.and_eq_false_iff,
    decide_eq_true_eq, decide_eq_false_iff_not]
  omega

/-- A code unit that is not the first half of a pair is a character, or it is alone. -/
theorem readable_lone_iff (hcode : code < 0x10000) {text : Bytes}
    (hlone : cs → isHighSurrogate code → ¬ BeginsLow symbols)
    (h : Readable none text ↔ NoneAlone cs symbols) :
    Readable none (Utf8.encode code ++ text) ↔ NoneAlone cs (.code code :: symbols) := by
  rcases kind_of_unit hcode with ⟨hscalar, hneutral⟩ | ⟨hsurrogate, hmin, hmax⟩
  · rw [Utf8.readable_encode_iff hscalar, h, noneAlone_cons_iff]
    rintro unit hunit
    cases hunit
    exact hneutral
  · refine iff_of_false (Utf8.not_readable_surrogate hmin hmax text) ?_
    rcases hsurrogate with hhigh | hlow
    · exact not_noneAlone_of_high hhigh fun hcs => hlone hcs hhigh
    · exact not_noneAlone_of_low hlow

theorem isScalar_combine {low : Nat} (hhigh : isHighSurrogate code) (hlow : isLowSurrogate low) :
    IsScalar (combine code low) := by
  have hbound := (Checked.combine_eq hhigh hlow).2
  have hlarge : 0x10000 ≤ combine code low := by
    unfold combine
    omega
  exact .inr ⟨Nat.le_trans (by decide) hlarge, hbound⟩

end Escape

/-- A body that is text means text, unless a surrogate is left on its own. -/
theorem readable_meaning_iff (h : Written symbols body) {pending : Option Utf8.Pending}
    (hdue : Due pending) (hbody : Readable pending body) :
    Readable pending (meaning cs symbols) ↔ NoneAlone cs symbols := by
  -- along `meaning`, with the character that is open in both at the same place
  fun_induction meaning cs symbols generalizing body pending with
  | case1 =>
      cases h
      exact iff_of_true hbody (noneAlone_nil cs)
  | case2 b symbols ih =>
      cases h with
      | plain hq hb h =>
          rw [Utf8.readable_cons_iff] at hbody
          rw [noneAlone_cons_iff (by rintro _ ⟨⟩), Utf8.readable_cons_iff, and_iff_right hbody.1]
          exact ih h (Utf8.due_step pending b) hbody.2
  | case3 b symbols ih =>
      cases h with
      | escape hu h =>
          obtain ⟨rfl, hrest⟩ := readable_of_escape hdue hbody
          rw [noneAlone_cons_iff (by rintro _ ⟨⟩)]
          exact readable_unescape_iff (ih h) hrest
  | case4 high low symbols hpair ih =>
      simp only [Bool.and_eq_true] at hpair
      obtain ⟨⟨rfl, hhigh⟩, hlow⟩ := hpair
      cases h with
      | code hdigits h =>
          cases h with
          | code hdigits' h =>
              obtain ⟨rfl, hmiddle⟩ := readable_of_unit hdigits hdue hbody
              have hrest := (readable_of_unit hdigits' Utf8.due_none hmiddle).2
              rw [noneAlone_pair_iff hhigh hlow, Utf8.readable_encode_iff (isScalar_combine hhigh hlow)]
              exact ih h Utf8.due_none hrest
  | case5 high low symbols hpair ih =>
      cases h with
      | code hdigits h =>
          obtain ⟨rfl, hrest⟩ := readable_of_unit hdigits hdue hbody
          refine readable_lone_iff (Checked.lt_of_codeUnit (hdigits.codeUnit [])) ?_
            (ih h Utf8.due_none hrest)
          rintro hcs hhigh ⟨_, _, hsymbols, hlow⟩
          cases hsymbols
          exact hpair (by simp only [hcs, hhigh, hlow, Bool.and_self])
  | case6 value symbols hnot ih =>
      cases h with
      | code hdigits h =>
          obtain ⟨rfl, hrest⟩ := readable_of_unit hdigits hdue hbody
          refine readable_lone_iff (Checked.lt_of_codeUnit (hdigits.codeUnit [])) ?_
            (ih h Utf8.due_none hrest)
          rintro hcs hhigh ⟨low, later, hsymbols, _⟩
          exact hnot low later hsymbols

/-! ### Decoding -/

section Decode

variable {arena written : Arena} {c after : Cursor} {span : Span}

/-- What was decoded is found behind its span: the meaning of a body that ends where decoding stopped. -/
theorem view_of_decode (hfits : arena.Fits)
    (h : Quoted.decode cs arena c = .ok (span, written, after)) :
    ∃ symbols body, Written symbols body ∧ c.rest = body ++ Byte.quote :: after.rest ∧
      written.get? span = some (meaning cs symbols) := by
  obtain ⟨symbols, body, hclosed, hroom⟩ := closedBy_of_decode h
  obtain ⟨written', hdecode, hcontents, hcapacity⟩ := decode_of_closedBy hclosed hroom
  rw [h] at hdecode
  cases hdecode
  obtain ⟨hbody, rest, hc⟩ := hclosed
  have hcursor : written.cursor = arena.cursor + (meaning cs symbols).length := by
    rw [← Arena.length_contents, hcontents, List.length_append, Arena.length_contents]
  have hspan : written.finish arena.cursor = ⟨arena.cursor, (meaning cs symbols).length⟩ := by
    rw [Arena.finish, Span.between, hcursor, Nat.add_sub_cancel_left]
  have hwritten : written.cursor ≤ written.capacity := by
    rw [hcursor, hcapacity]
    unfold Arena.Fits Arena.remaining at *
    omega
  refine ⟨symbols, body, hbody, ?_, ?_⟩
  · have hsplit : c.rest = (body ++ [Byte.quote]) ++ rest := by
      rw [hc, List.append_assoc, List.singleton_append]
    have hrest := Cursor.rest_advance hsplit
    rw [List.length_append, List.length_singleton] at hrest
    rw [hrest, hc]
  · rw [← hspan]
    exact Arena.get?_finish hcontents hwritten

/-- **Surrogates alone decide.** Of a string whose body is text in UTF-8, the decoded bytes are text as
well, so that they can be looked up as text, just when no surrogate of the body is left on its own. -/
theorem text_iff_noneAlone (hfits : arena.Fits)
    (h : Quoted.decode cs arena c = .ok (span, written, after)) :
    ∃ symbols body bytes, Written symbols body ∧ c.rest = body ++ Byte.quote :: after.rest ∧
      written.get? span = some bytes ∧
      ((Utf8.decode? body).isSome →
        ((Utf8.decode? bytes).isSome ↔ NoneAlone cs symbols) ∧
          ((written.text? span).isSome ↔ NoneAlone cs symbols)) := by
  obtain ⟨symbols, body, hwritten, hbody, hget⟩ := view_of_decode hfits h
  refine ⟨symbols, body, _, hwritten, hbody, hget, fun htext => ?_⟩
  rw [Utf8.isSome_decode?_iff] at htext
  have hiff : (Utf8.decode? (meaning cs symbols)).isSome ↔ NoneAlone cs symbols :=
    Utf8.isSome_decode?_iff.trans (readable_meaning_iff hwritten Utf8.due_none htext)
  refine ⟨hiff, ?_⟩
  rw [Arena.text?, hget, Option.bind_some, Option.isSome_map]
  exact hiff

/-- A pair, and a high surrogate that has no other half. -/
theorem text_iff_noneAlone_halves :
    let bs := Utf8.ofString "\\ud83d\\ude00\\ud83d\""
    let written : Arena := ⟨#[0xF0, 0x9F, 0x98, 0x80, 0xED, 0xA0, 0xBD], 8, by decide⟩
    (Arena.withCapacity 8).Fits ∧
      Quoted.decode true (.withCapacity 8) (.start bs) = .ok (⟨0, 7⟩, written, ⟨19, []⟩) ∧
      ∃ symbols body, Written symbols body ∧ bs = body ++ [Byte.quote] ∧
        (Utf8.decode? body).isSome ∧ ¬ (written.text? ⟨0, 7⟩).isSome ∧ ¬ NoneAlone true symbols := by
  intro bs written
  have hfits : (Arena.withCapacity 8).Fits := Arena.fits_empty rfl
  have hdecode : Quoted.decode true (.withCapacity 8) (.start bs) =
      .ok (⟨0, 7⟩, written, ⟨19, []⟩) := by
    decide +kernel
  obtain ⟨symbols, body, bytes, hwritten, hbody, -, hiff⟩ := text_iff_noneAlone hfits hdecode
  have hbytes : body = bs.dropLast := by
    have hsplit : bs = body ++ [Byte.quote] := hbody
    rw [hsplit, List.dropLast_concat]
  have htext : (Utf8.decode? body).isSome := by
    rw [hbytes]
    decide +kernel
  have hlone : ¬ (written.text? ⟨0, 7⟩).isSome := by decide +kernel
  exact ⟨hfits, hdecode, symbols, body, hwritten, hbody, htext, hlone, fun hnone =>
    hlone ((hiff htext).2.2 hnone)⟩

end Decode

end Intake.Record
