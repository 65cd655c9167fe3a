import Intake.Proofs.Record.Grammar.Quoted
import Intake.Proofs.Record.Rendering.Quoted

/-!
# What a string means

The body of a string is a row of units: plain bytes, escapes of one byte, and escapes of a code unit. A
row of units means a string of bytes whatever arena it is decoded into, and reading it from left to
right settles which surrogates are pairs. The decoder takes runs of plain bytes at once and looks ahead
for the second half of a pair, and comes to the same bytes: it succeeds just when units up to a
closing quote are there and what they mean fits.

The meaning goes through the decoder's own table of escapes and its own arithmetic of pairs. That they are
the usual ones is said beside this, in `Meaning.Escapes`.
-/

namespace Intake.Record

open Quoted (isHighSurrogate isLowSurrogate combine unescape)

/-- A unit of the body of a string. -/
inductive Symbol where
  | plain (b : UInt8)
  /-- A backslash and a byte that is not the letter of a code unit. -/
  | escape (b : UInt8)
  | code (value : Nat)

/-- The units that a body is written in. -/
inductive Written : List Symbol → Bytes → Prop
  | nil : Written [] []
  | plain {b : UInt8} {symbols : List Symbol} {body : Bytes} (hq : b ≠ Byte.quote)
      (hb : b ≠ Byte.backslash) (h : Written symbols body) : Written (.plain b :: symbols) (b :: body)
  | escape {b : UInt8} {symbols : List Symbol} {body : Bytes} (hu : b ≠ Byte.letterU)
      (h : Written symbols body) : Written (.escape b :: symbols) (Byte.backslash :: b :: body)
  | code {value : Nat} {digits : Bytes} {symbols : List Symbol} {body : Bytes}
      (hvalue : HexUnit value digits) (h : Written symbols body) :
      Written (.code value :: symbols) (Byte.backslash :: Byte.letterU :: (digits ++ body))

/-- The bytes that a row of units means. With `combineSurrogates`, a high surrogate and a low one right
behind it are the two halves of one code point. -/
def meaning (combineSurrogates : Bool) : List Symbol → Bytes
  | [] => []
  | .plain b :: symbols => b :: meaning combineSurrogates symbols
  | .escape b :: symbols => unescape b :: meaning combineSurrogates symbols
  | .code high :: .code low :: symbols =>
    if combineSurrogates && isHighSurrogate high && isLowSurrogate low then
      Utf8.encode (combine high low) ++ meaning combineSurrogates symbols
    else Utf8.encode high ++ meaning combineSurrogates (.code low :: symbols)
  | .code value :: symbols => Utf8.encode value ++ meaning combineSurrogates symbols

variable {cs : Bool} {symbols : List Symbol} {body : Bytes}

/-- The first unit is an escaped low surrogate. -/
def BeginsLow (symbols : List Symbol) : Prop :=
  ∃ low later, symbols = .code low :: later ∧ isLowSurrogate low

theorem meaning_pair {high low : Nat} (hcs : cs) (hhigh : isHighSurrogate high)
    (hlow : isLowSurrogate low) (symbols : List Symbol) : meaning cs (.code high :: .code low :: symbols) =
      Utf8.encode (combine high low) ++ meaning cs symbols := by
  simp only [meaning, hcs, hhigh, hlow, Bool.and_self, if_true]

/-- A code unit that is not the first half of a pair is encoded alone. -/
theorem meaning_lone {value : Nat} (h : cs → isHighSurrogate value → ¬ BeginsLow symbols) :
    meaning cs (.code value :: symbols) = Utf8.encode value ++ meaning cs symbols := by
  cases symbols with
  | nil => rfl
  | cons symbol symbols =>
      cases symbol with
      | plain b | escape b => rfl
      | code low =>
          rw [meaning]
          refine if_neg fun hpair => ?_
          simp only [Bool.and_eq_true] at hpair
          exact h hpair.1.1 hpair.1.2 ⟨low, symbols, rfl, hpair.2⟩

theorem beginsLow_iff (h : Written symbols body) : BeginsLow symbols ↔ StartsLow body := by
  constructor
  · rintro ⟨low, later, rfl, hlow⟩
    cases h with
    | code hvalue h => exact ⟨low, _, _, rfl, hvalue, hlow⟩
  · rintro ⟨low, digits, rest, hbody, hdigits, hlow⟩
    cases h with
    | nil => cases hbody
    | plain _ hb => exact absurd (List.cons.inj hbody).1 hb
    | escape hu => exact absurd (List.cons.inj (List.cons.inj hbody).2).1 hu
    | @code value digits' symbols tail hvalue =>
        have hsame : digits' ++ tail = digits ++ rest := (List.cons.inj (List.cons.inj hbody).2).2
        have hunit := hvalue.codeUnit tail
        rw [hsame, hdigits.codeUnit rest] at hunit
        obtain rfl := Quoted.CodeUnit.code.inj hunit
        exact ⟨low, symbols, rfl, hlow⟩

/-! ### Meaning and spelling -/

/-- A body spells what its units mean. -/
theorem spells_meaning (h : Written symbols body) : Spells cs (meaning cs symbols) body := by
  -- along `meaning`, which takes two units at once where they are a pair
  fun_induction meaning cs symbols generalizing body with
  | case1 =>
      cases h
      exact .nil
  | case2 b symbols ih =>
      cases h with
      | plain hq hb h => exact .plain hq hb (ih h)
  | case3 b symbols ih =>
      cases h with
      | escape hu h => exact .escape hu (ih h)
  | case4 high low symbols hpair ih =>
      simp only [Bool.and_eq_true] at hpair
      cases h with
      | code hhigh h =>
          cases h with
          | code hlow h => exact .pair hpair.1.1 hhigh hpair.1.2 hlow hpair.2 (ih h)
  | case5 high low symbols hpair ih =>
      cases h with
      | code hhigh h =>
          refine .unit hhigh (fun hcs hhigh' hstarts => hpair ?_) (ih h)
          obtain ⟨_, _, hsymbols, hlow'⟩ := (beginsLow_iff h).2 hstarts
          cases hsymbols
          simp only [hcs, hhigh', hlow', Bool.and_self]
  | case6 value symbols hnot ih =>
      cases h with
      | code hvalue h =>
          refine .unit hvalue (fun _ _ hstarts => ?_) (ih h)
          obtain ⟨low, later, hsymbols, _⟩ := (beginsLow_iff h).2 hstarts
          exact hnot low later hsymbols

/-- Whatever a body spells is what some units mean that it is written in. -/
theorem exists_symbols {text : Bytes} (h : Spells cs text body) :
    ∃ symbols, Written symbols body ∧ meaning cs symbols = text := by
  induction h with
  | nil => exact ⟨[], .nil, rfl⟩
  | plain hq hb _ ih =>
      obtain ⟨symbols, hsymbols, rfl⟩ := ih
      exact ⟨_, .plain hq hb hsymbols, rfl⟩
  | escape hu _ ih =>
      obtain ⟨symbols, hsymbols, rfl⟩ := ih
      exact ⟨_, .escape hu hsymbols, rfl⟩
  | unit hcode hlone _ ih =>
      obtain ⟨symbols, hsymbols, rfl⟩ := ih
      refine ⟨_, .code hcode hsymbols, meaning_lone fun hcs hhigh hlow => ?_⟩
      exact hlone hcs hhigh ((beginsLow_iff hsymbols).1 hlow)
  | pair hcombine hhigh hhigh' hlow hlow' _ ih =>
      obtain ⟨symbols, hsymbols, rfl⟩ := ih
      exact ⟨_, .code hhigh (.code hlow hsymbols), meaning_pair hcombine hhigh' hlow' symbols⟩

/-! ### Decoding -/

/-- The text begins with a body in these units, and with the quote that closes it. -/
def ClosedBy (symbols : List Symbol) (body bs : Bytes) : Prop :=
  Written symbols body ∧ ∃ rest, bs = body ++ Byte.quote :: rest

section Decode

variable {arena : Arena} {c : Cursor}

/-- A body that is closed is written as its meaning, if that fits. -/
theorem decode_of_closedBy (h : ClosedBy symbols body c.rest)
    (hfits : (meaning cs symbols).length ≤ arena.remaining) :
    ∃ written, Quoted.decode cs arena c = .ok (⟨arena.cursor, (meaning cs symbols).length⟩, written,
        c.advance (body.length + 1)) ∧
      written.contents = arena.contents ++ meaning cs symbols ∧ written.capacity = arena.capacity := by
  obtain ⟨hwritten, rest, hc⟩ := h
  have hspells : Spells cs (meaning cs symbols) body := spells_meaning hwritten
  have hread := readsAs_of_spells hspells hc
  rw [← hread.flatten] at hfits
  obtain ⟨written, hextend, hcontents, hcapacity⟩ := Arena.extendAll_of_le_remaining hfits
  rw [hread.flatten] at hcontents
  have hspan : written.finish arena.cursor = ⟨arena.cursor, (meaning cs symbols).length⟩ := by
    rw [Arena.finish, Span.between, ← Arena.length_contents written, hcontents, List.length_append,
      Arena.length_contents, Nat.add_sub_cancel_left]
  exact ⟨written, by simp only [Quoted.decode, hextend, hread.ending, hspan], hcontents, hcapacity⟩

theorem decode_of_not_fits (h : ClosedBy symbols body c.rest)
    (hfull : ¬ (meaning cs symbols).length ≤ arena.remaining) :
    ∃ overflow, Quoted.decode cs arena c = .error (.fault (.capacityExceeded overflow)) := by
  obtain ⟨hwritten, rest, hc⟩ := h
  have hspells : Spells cs (meaning cs symbols) body := spells_meaning hwritten
  have hread := readsAs_of_spells hspells hc
  cases hextend : arena.extendAll (Quoted.read cs c).pieces with
  | error overflow => exact ⟨overflow, by simp only [Quoted.decode, hextend]⟩
  | ok written => exact absurd (hread.flatten ▸ Arena.room_of_extendAll hextend) hfull

/-- What is decoded is a body that is closed and fits. -/
theorem closedBy_of_decode {decoded : Span × Arena × Cursor}
    (h : Quoted.decode cs arena c = .ok decoded) :
    ∃ symbols body, ClosedBy symbols body c.rest ∧ (meaning cs symbols).length ≤ arena.remaining := by
  simp only [Quoted.decode] at h
  split at h
  · cases h
  next hextend =>
  split at h
  next after hending =>
    obtain ⟨body, hc, hspells⟩ := spells_of_read hending
    obtain ⟨symbols, hwritten, hmeaning⟩ := exists_symbols hspells
    exact ⟨symbols, body, ⟨hwritten, _, hc⟩, hmeaning ▸ Arena.room_of_extendAll hextend⟩
  · cases h
  · cases h

end Decode

/-- **Strings decode to their meaning.** From any place of an input, into any arena, decoding succeeds just
when a body and its closing quote are there and the meaning of the body fits. Then it stops past
that quote, and what it has written is the meaning, behind everything that was there, and its span. A
body that is closed and does not fit overflows the arena. -/
theorem decode_meaning (cs : Bool) (arena : Arena) (input : Bytes) (pos : Nat) :
    let decoded := Quoted.decode cs arena (.within input pos)
    ((∃ value, decoded = .ok value) ↔ ∃ symbols body, ClosedBy symbols body (input.drop pos) ∧
      (meaning cs symbols).length ≤ arena.remaining) ∧
    ∀ symbols body, ClosedBy symbols body (input.drop pos) →
      if (meaning cs symbols).length ≤ arena.remaining then
        ∃ written, decoded = .ok (⟨arena.cursor, (meaning cs symbols).length⟩, written,
            .within input (pos + body.length + 1)) ∧
          written.contents = arena.contents ++ meaning cs symbols ∧ written.capacity = arena.capacity
      else ∃ overflow, decoded = .error (.fault (.capacityExceeded overflow)) := by
  intro decoded
  have hafter (body : Bytes) : (Cursor.within input pos).advance (body.length + 1) =
      .within input (pos + body.length + 1) := by
    simp only [Cursor.within, Cursor.advance, List.drop_drop, Nat.add_assoc]
  refine ⟨⟨fun ⟨value, hvalue⟩ => closedBy_of_decode hvalue, ?_⟩, fun symbols body hclosed => ?_⟩
  · rintro ⟨symbols, body, hclosed, hfits⟩
    obtain ⟨written, hdecode, -⟩ := decode_of_closedBy (c := .within input pos) hclosed hfits
    exact ⟨_, hdecode⟩
  · split
    next hfits =>
      rw [← hafter]
      exact decode_of_closedBy (c := .within input pos) hclosed hfits
    next hfull => exact decode_of_not_fits (c := .within input pos) hclosed hfull

/-- Of two high surrogates and a low one, the last two are a pair. -/
example : meaning true [.code 0xD83D, .code 0xD83D, .code 0xDE00, .escape 0x6E] =
    [0xED, 0xA0, 0xBD, 0xF0, 0x9F, 0x98, 0x80, 0x0A] := by
  decide

end Intake.Record
