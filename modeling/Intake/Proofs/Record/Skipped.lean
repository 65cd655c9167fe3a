import Intake.Proofs.Record.Grammar.Skip
import Intake.Proofs.Record.Grammar
import Intake.Proofs.Record.Rendering.List

/-!
# Loose text is skipped whole

What is skipped is loose text; here is the converse. A reader that meets loose text with brackets to spare
steps over all of it and over nothing else, whatever follows, and has the same brackets open afterwards.
A bare word is told from what follows by the byte that ends it, so such a byte has to be there.

JSON text is loose: its separators are among the bytes that may stand anywhere between brackets.
-/

namespace Intake.Record

variable {limit n : Nat} {nest : Nest} {opened : List Bracket} {c : Cursor} {bs body rest : Bytes}

/-- A byte follows that ends a bare word. -/
def Fenced (rest : Bytes) : Prop := ∃ b tail, rest = b :: tail ∧ endsWord b = true

theorem endsWord_of_isSpace {b : UInt8} (h : Byte.isSpace b) : endsWord b = true := by
  rw [endsWord, h, Bool.or_true]

theorem Bracket.endsWord_closing (bracket : Bracket) : endsWord bracket.closing = true := by
  cases bracket <;> decide

theorem Gap.fenced {gap : Bytes} (h : Gap gap) {b : UInt8} (hb : endsWord b = true) :
    Fenced (gap ++ b :: rest) := by
  cases gap with
  | nil => exact ⟨b, rest, rfl, hb⟩
  | cons a gap => exact ⟨a, _, rfl, endsWord_of_isSpace (h a List.mem_cons_self)⟩

theorem Fenced.ends (h : Fenced rest) : Ends rest := by
  obtain ⟨b, tail, rfl, hb⟩ := h
  refine ⟨b, tail, rfl, ?_⟩
  cases hdigit : Byte.isDigit b with
  | false => rfl
  | true =>
      have hinert := isInert_of_isDigit hdigit
      simp only [endsWord, Byte.isSpace, Bool.or_eq_true, beq_iff_eq] at hb
      rcases hb with ((((rfl | rfl) | rfl) | rfl) | rfl) | ((rfl | rfl) | rfl) | rfl <;>
        exact absurd hdigit (by decide)

/-! ### Tokens -/

theorem rawString_of_sealed (hbody : Sealed body)
    (hc : c.skipSpace.rest = Byte.quote :: (body ++ Byte.quote :: rest)) :
    rawString c = .ok (body, c.skipSpace.advance (body.length + 2)) := by
  have hin := Cursor.rest_advance_one hc
  have hclose : closingQuote? 0 (c.skipSpace.advance 1).rest = some body.length := by
    rw [hin, closingQuote?_of_sealed hbody, Nat.zero_add]
  have htake : (c.skipSpace.advance 1).rest.take body.length = body := by
    rw [hin, List.take_left]
  simp only [rawString, expect_of_cons hc, if_true, hclose, htake, Cursor.advance_advance,
    Nat.add_comm 1]

theorem skipToken_string (hbody : Sealed body) (hc : c.rest = Byte.quote :: (body ++ Byte.quote :: rest)) :
    skipToken limit nest c = .ok (nest, c.advance (body.length + 2)) := by
  have hskip : c.skipSpace = c := Cursor.skipWhile_of_neg hc (by decide)
  have hraw := rawString_of_sealed hbody (hskip.symm ▸ hc)
  rw [hskip] at hraw
  simp only [skipToken, hc, if_true, hraw]

theorem skipToken_opening (bracket : Bracket) (hc : c.rest = bracket.opening :: rest)
    (hdepth : nest.depth ≠ limit) :
    skipToken limit nest c = .ok (nest.enter bracket, c.advance 1) := by
  have hquote : bracket.opening ≠ Byte.quote := by cases bracket <;> decide
  have hopened : Bracket.opened? bracket.opening = some bracket := by cases bracket <;> rfl
  simp only [skipToken, hc, if_neg hquote, hopened, if_neg hdepth]

theorem skipToken_closing (bracket : Bracket) (hc : c.rest = bracket.closing :: rest)
    (hin : nest.innermost? = some bracket) :
    skipToken limit nest c = .ok (nest.leave, c.advance 1) := by
  have hquote : bracket.closing ≠ Byte.quote := by cases bracket <;> decide
  have hopened : Bracket.opened? bracket.closing = none := by cases bracket <;> rfl
  have hclosed : Bracket.closed? bracket.closing = some bracket := by cases bracket <;> rfl
  simp only [skipToken, hc, if_neg hquote, hopened, hclosed, hin, if_true]

theorem skipToken_separator {b : UInt8} (hc : c.rest = b :: rest) (hb : b = Byte.comma ∨ b = Byte.colon)
    (hdepth : nest.depth ≠ 0) : skipToken limit nest c = .ok (nest, c.advance 1) := by
  obtain ⟨hquote, hopened, hclosed⟩ :
      b ≠ Byte.quote ∧ Bracket.opened? b = none ∧ Bracket.closed? b = none := by
    rcases hb with rfl | rfl <;> decide
  simp only [skipToken, hc, if_neg hquote, hopened, hclosed, if_pos hb, if_neg hdepth]

theorem word_of_bare (hbare : Bare bs) (hfenced : Fenced rest) (hc : c.rest = bs ++ rest) :
    word c = .ok ((), c.advance bs.length) := by
  obtain ⟨b, tail, rfl, hb⟩ := hfenced
  have hafter : (c.skipWhile fun b => !endsWord b) = c.advance bs.length :=
    Cursor.skipWhile_of_append (fun a ha => by rw [hbare.1 a ha]; rfl) (by rw [hb]; rfl) hc
  have hmoved : ¬ (c.advance bs.length).pos = c.pos := by
    obtain ⟨-, a, front, rfl, -⟩ := hbare
    rw [Cursor.advance_pos, List.length_cons]
    omega
  simp only [word, hafter, Cursor.rest_advance hc, if_neg hmoved]

theorem skipToken_bare (hbare : Bare bs) (hfenced : Fenced rest) (hc : c.rest = bs ++ rest) :
    skipToken limit nest c = .ok (nest, c.advance bs.length) := by
  have hword := word_of_bare hbare hfenced hc
  obtain ⟨hends, b, tail, rfl, hopens⟩ := hbare
  have hb := hends b List.mem_cons_self
  rw [List.cons_append] at hc
  simp only [endsWord, Bool.or_eq_false_iff, beq_eq_false_iff_ne] at hb
  obtain ⟨⟨⟨⟨⟨hcomma, hbrace⟩, hsquare⟩, hcolon⟩, hquote⟩, -⟩ := hb
  simp only [Stream.opens, Bool.or_eq_false_iff, beq_eq_false_iff_ne] at hopens
  simp only [skipToken, hc, if_neg hquote, Bracket.opened?, if_neg hopens.1, if_neg hopens.2,
    Bracket.closed?, if_neg hbrace, if_neg hsquare, hcomma, hcolon, or_self, if_false, hword]

/-! ### Values -/

theorem Loose.solid (h : Loose .value n bs) : Solid bs := by
  cases h with
  | string => exact ⟨_, _, rfl, by decide, by decide⟩
  | bare h =>
      obtain ⟨hends, b, tail, rfl, -⟩ := h
      have hb := hends b List.mem_cons_self
      simp only [endsWord, Bool.or_eq_false_iff] at hb
      refine ⟨b, tail, rfl, hb.2, ?_⟩
      rw [Stream.closes, hb.1.1.1.1.2, hb.1.1.1.2]
      rfl
  | nested bracket => exact ⟨_, _, rfl, by cases bracket <;> decide, by cases bracket <;> decide⟩

/-- From `c`, in the nest, skipping goes on as from `d` in some nest with the same brackets open. Where
none is open it has come to its end. -/
def SkipsTo (limit : Nat) (opened : List Bracket) (nest : Nest) (c d : Cursor) : Prop :=
  ∃ nest' : Nest, nest'.Tracks opened ∧ skipWithin limit nest c =
    if opened = [] then .ok ((), d) else skipWithin limit nest' d

theorem skipsTo_of_token {nest' : Nest} {d : Cursor} (htracks : nest'.Tracks opened)
    (htoken : skipToken limit nest c.skipSpace = .ok (nest', d)) : SkipsTo limit opened nest c d := by
  refine ⟨nest', htracks, ?_⟩
  have hdepth : nest'.depth = 0 ↔ opened = [] := by
    rw [htracks.depth, List.length_eq_zero_iff]
  simp only [skipWithin_eq limit nest c, htoken, hdepth]

/-- What the reader does with loose text, which is its whole part in a scan. -/
def Skips (limit : Nat) : Part → Nat → Bytes → Prop
  | .value, n, bs => ∀ ⦃opened nest c rest⦄, Nest.Tracks nest opened → opened.length + n ≤ limit →
      c.rest = bs ++ rest → (Bare bs → Fenced rest) → SkipsTo limit opened nest c (c.advance bs.length)
  | .inside, n, bs => ∀ ⦃opened nest c rest⦄, Nest.Tracks nest opened → opened ≠ [] →
      opened.length + n ≤ limit → c.rest = bs ++ rest → Fenced rest →
        ∃ nest' : Nest, nest'.Tracks opened ∧
          skipWithin limit nest c = skipWithin limit nest' (c.advance bs.length)

theorem skips_string (hbody : Sealed body) :
    Skips limit .value n (Byte.quote :: (body ++ [Byte.quote])) := by
  intro opened nest c rest htracks _ hc _
  have hskip : c.skipSpace = c := Cursor.skipWhile_of_neg hc (by decide)
  have hcons : c.rest = Byte.quote :: (body ++ Byte.quote :: rest) := by
    rw [hc]
    simp
  refine skipsTo_of_token htracks ?_
  rw [hskip, skipToken_string hbody hcons, List.length_cons, List.length_append]
  rfl

theorem skips_bare (hbare : Bare bs) : Skips limit .value n bs := by
  intro opened nest c rest htracks _ hc hfenced
  obtain ⟨b, tail, rfl, hspace, -⟩ := (Loose.bare hbare : Loose .value n bs).solid
  have hskip : c.skipSpace = c := Cursor.skipWhile_of_neg hc hspace
  refine skipsTo_of_token htracks ?_
  rw [hskip]
  exact skipToken_bare hbare (hfenced hbare) hc

/-- Past the bracket that opens, over what is inside, and past the bracket that closes. -/
theorem skips_nested (hmax : limit ≤ Nest.maxDepth) (bracket : Bracket) (h : Skips limit .inside n bs) :
    Skips limit .value (n + 1) (bracket.opening :: (bs ++ [bracket.closing])) := by
  intro opened nest c rest htracks hroom hc _
  have hcons : c.rest = bracket.opening :: (bs ++ bracket.closing :: rest) := by
    rw [hc]
    simp
  have hskip : c.skipSpace = c :=
    Cursor.skipWhile_of_neg hcons (by cases bracket <;> decide)
  have hdepth : nest.depth ≠ limit := by
    rw [htracks.depth]
    omega
  have hbits : nest.depth < Nest.maxDepth := by
    rw [htracks.depth]
    omega
  have hopening := skipToken_opening bracket hcons hdepth
  have hin := Cursor.rest_advance_one hcons
  obtain ⟨nest', htracks', hinside⟩ := h (htracks.enter hbits bracket) (List.cons_ne_nil _ _)
    (by rw [List.length_cons]; omega) hin ⟨_, rest, rfl, bracket.endsWord_closing⟩
  have hout := Cursor.rest_advance hin
  have hskip' : ((c.advance 1).advance bs.length).skipSpace = (c.advance 1).advance bs.length :=
    Cursor.skipWhile_of_neg hout bracket.closing_spec.1
  have hclosing : skipToken limit nest' ((c.advance 1).advance bs.length) = _ :=
    skipToken_closing bracket hout htracks'.innermost?
  have hend : ((c.advance 1).advance bs.length).advance 1 =
      c.advance (bracket.opening :: (bs ++ [bracket.closing])).length := by
    simp only [Cursor.advance_advance, List.length_cons, List.length_append, List.length_nil]
    congr 1
    omega
  obtain ⟨nest'', htracks'', hrun⟩ :=
    skipsTo_of_token (c := (c.advance 1).advance bs.length) htracks'.leave (by rw [hskip', hclosing])
  refine ⟨nest'', htracks'', ?_⟩
  have hopened : (nest.enter bracket).depth ≠ 0 := by simp
  rw [skipWithin_eq, hskip, hopening]
  simp only [if_neg hopened]
  rw [hinside, hrun, hend]

theorem skips_filler {b : UInt8} (hb : isFiller b) (h : Skips limit .inside n bs) :
    Skips limit .inside n (b :: bs) := by
  intro opened nest c rest htracks hopened hroom hc hfenced
  have hin : (c.advance 1).rest = bs ++ rest := Cursor.rest_advance_one hc
  obtain ⟨nest', htracks', hrest⟩ := h htracks hopened hroom hin hfenced
  refine ⟨nest', htracks', ?_⟩
  rw [List.length_cons, Nat.add_comm, ← Cursor.advance_advance, ← hrest]
  simp only [isFiller, Bool.or_eq_true, beq_iff_eq] at hb
  rcases hb with (hspace | hcomma) | hcolon
  · have hsame : c.skipSpace = (c.advance 1).skipSpace := Cursor.skipWhile_cons hc hspace
    rw [skipWithin_eq, hsame, ← skipWithin_eq]
  all_goals
    have hskip : c.skipSpace = c := Cursor.skipWhile_of_neg hc (by simp [*]; decide)
    have hdepth : nest.depth ≠ 0 := by
      rw [htracks.depth]
      simpa using hopened
    rw [skipWithin_eq, hskip, skipToken_separator hc (by simp [*]) hdepth]
    simp only [if_neg hdepth]

theorem skips_cons {value : Bytes} (hvalue : Skips limit .value n value)
    (hends : Bare value → ∀ b ∈ bs.head?, endsWord b = true) (h : Skips limit .inside n bs) :
    Skips limit .inside n (value ++ bs) := by
  intro opened nest c rest htracks hopened hroom hc hfenced
  rw [List.append_assoc] at hc
  have hfence (hbare : Bare value) : Fenced (bs ++ rest) := by
    cases bs with
    | nil => exact hfenced
    | cons b bs => exact ⟨b, bs ++ rest, rfl, hends hbare b rfl⟩
  obtain ⟨nest', htracks', hvalue'⟩ := hvalue htracks hroom hc hfence
  rw [if_neg hopened] at hvalue'
  obtain ⟨nest'', htracks'', hrest⟩ := h htracks' hopened hroom (Cursor.rest_advance hc) hfenced
  refine ⟨nest'', htracks'', ?_⟩
  rw [hvalue', hrest, Cursor.advance_advance, List.length_append]

/-- Loose text is stepped over. -/
theorem Loose.skips {part : Part} (h : Loose part n bs) (hmax : limit ≤ Nest.maxDepth) :
    Skips limit part n bs := by
  induction h with
  | string hbody => exact skips_string hbody
  | bare hbare => exact skips_bare hbare
  | nested bracket _ ih => exact skips_nested hmax bracket ih
  | nil => exact fun _ nest _ _ htracks _ _ _ _ => ⟨nest, htracks, rfl⟩
  | filler hb _ ih => exact skips_filler hb ih
  | cons _ hends _ ihvalue ih => exact skips_cons ihvalue hends ih

/-- A value that no field asks for is skipped, and nothing behind it. -/
theorem skipValue_of_skippedText {options : Options} (h : SkippedText options bs)
    (hc : c.skipSpace.rest = bs ++ rest) (hfenced : Fenced rest) :
    skipValue options.maxNesting c = .ok ((), c.skipSpace.advance bs.length) := by
  have hskips := h.skips (nestingLimit_le options.maxNesting)
  obtain ⟨nest, -, hskip⟩ :=
    hskips Nest.tracks_nil (Nat.le_of_eq (Nat.zero_add _)) hc fun _ => hfenced
  have hsame : skipWithin (nestingLimit options.maxNesting) {} c =
      skipWithin (nestingLimit options.maxNesting) {} c.skipSpace := by
    rw [skipWithin_eq, skipWithin_eq _ _ c.skipSpace, Cursor.skipSpace_skipSpace]
  rw [skipValue, hsame, hskip]
  rfl

/-! ### JSON text -/

theorem Loose.append {bs' : Bytes} {part : Part} (h : Loose part n bs) (hpart : part = .inside)
    (h' : Loose .inside n bs') (hends : ∀ b ∈ bs'.head?, endsWord b = true) :
    Loose .inside n (bs ++ bs') := by
  induction h with
  | string | bare | nested => cases hpart
  | nil => exact h'
  | filler hb _ ih => exact .filler hb (ih hpart h')
  | @cons n value bs hvalue hfence _ _ ih =>
      rw [List.append_assoc]
      refine .cons hvalue (fun hbare b hb => ?_) (ih hpart h')
      cases bs with
      | nil => exact hends b hb
      | cons a bs => exact hfence hbare b hb

theorem Gap.inside {gap : Bytes} (h : Gap gap) (n : Nat) : Loose .inside n gap := by
  rw [← List.append_nil gap]
  exact Loose.nil.gap h

/-- What a shape is made of, as loose text. -/
def Shape.part : Shape → Part
  | value | list _ => .value
  | items _ | item _ => .inside

theorem Word.bare (h : Word bs) : Bare bs := by
  obtain ⟨b, tail, rfl⟩ := List.exists_cons_of_ne_nil h.1
  exact ⟨fun a ha => (h.2 a ha).1, b, tail, rfl, (h.2 b List.mem_cons_self).2⟩

/-- JSON text is loose text of the same nesting. -/
theorem loose_of_json {shape : Shape} (h : Json shape n bs) : Loose shape.part n bs := by
  induction h with
  | word h => exact .bare h.bare
  | string h => exact .string h
  | nested _ ih => exact ih
  | empty bracket h => exact .nested bracket (h.inside _)
  | full _ ih => exact .nested _ ih
  | last _ ih => exact ih
  | more _ _ ih ihrest =>
      refine ih.append rfl (.filler (by decide) ihrest) fun b hb => ?_
      obtain rfl := Option.some.inj hb
      decide
  | @element n before value after hbefore _ hafter ih =>
      exact (Loose.cons ih (fun _ b hb =>
        endsWord_of_isSpace (hafter b (List.mem_of_mem_head? hb))) (hafter.inside n)).gap hbefore
  | @member n before key after value hbefore hkey hafter _ ih =>
      have hvalue : Loose .inside n (after ++ Byte.colon :: value) :=
        (Loose.filler (by decide) ih).gap hafter
      have hstring := Loose.cons (.string hkey) (fun hbare => absurd hbare (not_bare_quote _)) hvalue
      rw [List.cons_append, List.append_assoc] at hstring
      exact hstring.gap hbefore

end Intake.Record
