import Intake.Proofs.Record.Grammar.Quoted
import Intake.Proofs.Record.Grammar.Skip
import Intake.Proofs.Record.Rendering.List
import Intake.Proofs.Record.Rendering.Number

/-!
# What a fault points at

A fault is blamed on the byte at its offset. What should stand there is a token: `Marks` says for each
kind of fault what it looks like, and what stands in front of it where that tells where the token
begins. A reader that blames the place at which it was called may be wrong by the whitespace in front of
the token, which is the business of those who call it.
-/

namespace Intake.Record

/-- The byte `b` comes before, with whitespace behind it perhaps. -/
def Behind (b : UInt8) (front : Bytes) : Prop := ∃ before gap, Gap gap ∧ front = before ++ b :: gap

/-- What a fault is about stands behind `front` and at the front of `token`. -/
inductive Marks (options : Options) (front : Bytes) : Fault → Bytes → Prop
  | unexpectedByte {b : UInt8} {rest : Bytes} {offset : Nat} (hb : Byte.isSpace b = false) :
      Marks options front (.unexpectedByte b offset) (b :: rest)
  | invalidUnicodeEscape {digits : Bytes} {offset : Nat} (h : Quoted.codeUnit digits = .malformed) :
      Marks options front (.invalidUnicodeEscape offset) (Byte.backslash :: Byte.letterU :: digits)
  | invalidNumber {b : UInt8} {rest : Bytes} {offset : Nat} (hfront : Behind Byte.colon front)
      (hb : Byte.isSpace b = false) (hnone : ∀ v numeral, Numeral v numeral → ¬ numeral <+: b :: rest) :
      Marks options front (.invalidNumber offset) (b :: rest)
  | numberOverflow {v : Int} {numeral rest : Bytes} {offset : Nat} (hfront : Behind Byte.colon front)
      (h : Numeral v numeral) (hrange : ¬ (0 ≤ v ∧ v < Decimal.signedBound)) :
      Marks options front (.numberOverflow offset) (numeral ++ rest)
  | invalidSex {text string rest : Bytes} {offset : Nat} (hfront : Behind Byte.colon front)
      (h : Quotes options.combineSurrogates text string) :
      Marks options front (.invalidSex offset) (string ++ rest)
  | invalidStatus {text string rest : Bytes} {offset : Nat} (hfront : Behind Byte.colon front)
      (h : Quotes options.combineSurrogates text string) :
      Marks options front (.invalidStatus offset) (string ++ rest)
  | incompleteLike {keys : List Bytes} {object rest : Bytes} {offset : Nat}
      (hfront : Behind Byte.openSquare front ∨ Behind Byte.comma front)
      (h : Listing .brace (Entry (LikeText options)) keys object) :
      Marks options front (.incompleteLike offset) (object ++ rest)
  | depthExceeded (bracket : Bracket) {rest : Bytes} {offset : Nat} :
      Marks options front (.depthExceeded (nestingLimit options.maxNesting) offset)
        (bracket.opening :: rest)

/-- Read from `c` on, behind `front`, a fault points at a token, or at the whitespace in front of one.
That happens only if what was read before is in `L`. -/
def Blamed (options : Options) (L : Bytes → Fault → Prop) (front : Bytes) (c : Cursor) (e : Fault) :
    Prop :=
  ∀ o, e.offset? = some o → ∃ read gap token, c.rest = read ++ (gap ++ token) ∧
    o = c.pos + read.length ∧ Gap gap ∧ Marks options (front ++ (read ++ gap)) e token ∧
      (gap ≠ [] → L read e)

/-- The fault always points at its token. -/
def Exact : Bytes → Fault → Prop := fun _ _ => False

/-- The fault points at the place where reading began. -/
def AtStart (kind : Nat → Fault) (read : Bytes) (e : Fault) : Prop := read = [] ∧ ∃ o, e = kind o

variable {options : Options} {L L' : Bytes → Fault → Prop} {front bs token : Bytes} {b : UInt8}
  {c d : Cursor} {e : Fault}

/-! ### Places -/

theorem Behind.append (h : Behind b front) {gap : Bytes} (hgap : Gap gap) : Behind b (front ++ gap) := by
  obtain ⟨before, gap', hgap', rfl⟩ := h
  exact ⟨before, gap' ++ gap, hgap'.append hgap, by rw [List.append_assoc, List.cons_append]⟩

theorem Behind.append_left (h : Behind b bs) (front : Bytes) : Behind b (front ++ bs) := by
  obtain ⟨before, gap, hgap, rfl⟩ := h
  exact ⟨front ++ before, gap, hgap, (List.append_assoc ..).symm⟩

theorem behind_concat (b : UInt8) (front : Bytes) : Behind b (front ++ [b]) := ⟨front, [], .nil, rfl⟩

theorem pos_of_reaches (h : c.Reaches d) (hc : c.rest = bs ++ d.rest) : d.pos = c.pos + bs.length := by
  have hsum := h.pos_add_length
  rw [hc, List.length_append] at hsum
  omega

theorem isSpace_of_skipSpace {rest : Bytes} (h : c.skipSpace.rest = b :: rest) :
    Byte.isSpace b = false := by
  have hhead := List.head?_dropWhile_not Byte.isSpace c.rest
  change c.rest.dropWhile Byte.isSpace = b :: rest at h
  rw [h] at hhead
  exact hhead

theorem isSpace_of_solid (h : Solid bs) (rest : Bytes) :
    ∃ b tail, bs ++ rest = b :: tail ∧ Byte.isSpace b = false := by
  obtain ⟨b, tail, rfl, hb, -⟩ := h
  exact ⟨b, tail ++ rest, rfl, hb⟩

theorem Marks.isSpace_eq_false (h : Marks options front e token) :
    ∃ b rest, token = b :: rest ∧ Byte.isSpace b = false := by
  cases h with
  | unexpectedByte hb | invalidNumber _ hb _ => exact ⟨_, _, rfl, hb⟩
  | invalidUnicodeEscape => exact ⟨_, _, rfl, rfl⟩
  | depthExceeded bracket => exact ⟨_, _, rfl, by cases bracket <;> rfl⟩
  | numberOverflow _ h => exact isSpace_of_solid (solid_of_numeral h) _
  | invalidSex _ h | invalidStatus _ h => exact isSpace_of_solid (solid_of_quotes h) _
  | incompleteLike _ h => exact isSpace_of_solid (solid_of_listing h) _

/-! ### Blame -/

theorem Blamed.mono (h : Blamed options L front c e) (hmono : ∀ read, L read e → L' read e) :
    Blamed options L' front c e := by
  intro o ho
  obtain ⟨read, gap, token, hc, hpos, hgap, hmarks, hL⟩ := h o ho
  exact ⟨read, gap, token, hc, hpos, hgap, hmarks, fun hne => hmono read (hL hne)⟩

theorem Blamed.exact (h : Blamed options Exact front c e) : Blamed options L front c e :=
  h.mono fun _ => False.elim

theorem Blamed.behind (h : Blamed options L' (front ++ bs) d e) (hc : c.rest = bs ++ d.rest)
    (hreaches : c.Reaches d) (hL : ∀ read, L' read e → L (bs ++ read) e) :
    Blamed options L front c e := by
  intro o ho
  obtain ⟨read, gap, token, hd, hpos, hgap, hmarks, hstray⟩ := h o ho
  refine ⟨bs ++ read, gap, token, ?_, ?_, hgap, ?_, fun hne => hL read (hstray hne)⟩
  · rw [hc, hd, List.append_assoc]
  · rw [hpos, pos_of_reaches hreaches hc, List.length_append, Nat.add_assoc]
  · rw [List.append_assoc] at hmarks ⊢
    exact hmarks

theorem Blamed.here (hoffset : ∀ o, e.offset? = some o → o = c.pos)
    (h : Marks options front e c.rest) : Blamed options Exact front c e := by
  intro o ho
  refine ⟨[], [], c.rest, rfl, hoffset o ho, .nil, ?_, fun hne => absurd rfl hne⟩
  rw [List.append_nil, List.append_nil]
  exact h

theorem Blamed.past_gap (h : ∀ gap, Gap gap → Blamed options Exact (front ++ gap) c.skipSpace e) :
    Blamed options Exact front c e := by
  obtain ⟨gap, hgap, hc⟩ := exists_gap c
  exact (h gap hgap).behind hc c.reaches_skipSpace fun _ => id

/-- The place where reading began is blamed, whether or not the token begins there. -/
theorem Blamed.at_start {kind : Nat → Fault} (hkind : ∀ n, (kind n).offset? = some n)
    {gap : Bytes} (hgap : Gap gap) (hc : c.rest = gap ++ token)
    (h : Marks options (front ++ gap) (kind c.pos) token) :
    Blamed options (AtStart kind) front c (kind c.pos) := by
  intro o ho
  rw [hkind] at ho
  exact ⟨[], gap, token, hc, (Option.some.inj ho).symm, hgap, h, fun _ => ⟨rfl, _, rfl⟩⟩

theorem Blamed.of_skipSpace (h : Blamed options L front c e) (hc : c.skipSpace = c) :
    Blamed options (fun read e => read ≠ [] ∧ L read e) front c e := by
  intro o ho
  obtain ⟨read, gap, token, hrest, hpos, hgap, hmarks, hL⟩ := h o ho
  refine ⟨read, gap, token, hrest, hpos, hgap, hmarks, fun hne => ⟨?_, hL hne⟩⟩
  rintro rfl
  obtain ⟨b, gap, rfl⟩ := List.exists_cons_of_ne_nil hne
  have hspace := hgap b List.mem_cons_self
  have hb : Byte.isSpace b = false := isSpace_of_skipSpace (hc.symm ▸ hrest)
  rw [hb] at hspace
  cases hspace

/-! ### Readers -/

variable {α : Type} {C : Bytes → Prop} {cs : Bool} {arena : Arena}

/-- Faults of the reader are blamed if `C` holds of what stands in front. -/
def BlamesRead (options : Options) (C : Bytes → Prop) (L : Bytes → Fault → Prop) (f : Cursor → Read α) :
    Prop :=
  ∀ ⦃front c e⦄, C front → f c = .error (.fault e) → Blamed options L front c e

theorem blamesRead_expect (b : UInt8) : BlamesRead options (fun _ => True) Exact (expect b) := by
  intro front c e _ h
  cases hc : c.skipSpace.rest with
  | nil =>
      rw [expect_of_nil hc] at h
      cases h
  | cons a rest =>
      rw [expect_of_cons hc] at h
      split at h
      · cases h
      · cases h
        refine .past_gap fun gap hgap => .here (fun o ho => (Option.some.inj ho).symm) ?_
        rw [hc]
        exact .unexpectedByte (isSpace_of_skipSpace hc)

theorem blamesRead_rawString : BlamesRead options (fun _ => True) Exact rawString := by
  intro front c e _ h
  unfold rawString at h
  split at h
  next hexpect =>
    cases h
    exact blamesRead_expect _ trivial hexpect
  · split at h <;> cases h

/-! ### Numbers -/

theorem takeWhile_ne_nil_of_numeral {v : Int} (h : Numeral v bs) {rest : Bytes}
    (hc : c.rest = bs ++ rest) : (sign c).2.rest.takeWhile Byte.isDigit ≠ [] := by
  obtain ⟨_, first, digits, hsign, ⟨hne, hall⟩, hfirst, -, -⟩ := sign_of_numeral h hc
  rw [hsign, hfirst, List.takeWhile_append_of_pos hall]
  exact fun hnil => hne (List.append_eq_nil_iff.1 hnil).1

theorem blamesRead_integer : BlamesRead options (Behind Byte.colon) Exact integer := by
  intro front c e hfront h
  refine .past_gap fun gap hgap => ?_
  have hbehind := hfront.append hgap
  obtain ⟨sgn, hsgn, hnumeral⟩ := numeral_of_sign c.skipSpace
  simp only [integer] at h
  split at h
  · cases h
  next hafter =>
  split at h
  next hdigits =>
    cases h
    refine .here (fun o ho => (Option.some.inj ho).symm) ?_
    have hnone : ∀ v numeral, Numeral v numeral → ¬ numeral <+: c.skipSpace.rest := by
      rintro v numeral hnum ⟨tail, htail⟩
      exact takeWhile_ne_nil_of_numeral hnum htail.symm hdigits
    cases hc : c.skipSpace.rest with
    | nil =>
        rw [hc] at hsgn
        obtain ⟨-, hrest⟩ := List.append_eq_nil_iff.1 hsgn.symm
        exact absurd (congrArg (List.dropWhile Byte.isDigit) hrest) hafter
    | cons b rest => exact .invalidNumber hbehind (isSpace_of_skipSpace hc) (hc ▸ hnone)
  next hdigits =>
  split at h
  next hbound =>
    cases h
    refine .here (fun o ho => (Option.some.inj ho).symm) ?_
    have hnum := hnumeral _ ⟨hdigits, fun _ hb => List.all_eq_true.1 List.all_takeWhile _ hb⟩
    rw [Decimal.bounded?_eq (by decide), ite_eq_right_iff] at hbound
    rw [hsgn, ← List.takeWhile_append_dropWhile (p := Byte.isDigit) (l := (sign c.skipSpace).2.rest),
      ← List.append_assoc]
    refine .numberOverflow hbehind hnum fun hrange => ?_
    have hlarge : ¬ Decimal.value ((sign c.skipSpace).2.rest.takeWhile Byte.isDigit) <
        Decimal.wideBound := fun hlt => by cases hbound hlt
    simp only [Decimal.wideBound, Decimal.signedBound] at hlarge hrange
    split at hrange <;> omega
  · cases h

theorem blamesRead_integerIn {low high : Int} (hlow : low ≤ 0) (hhigh : Decimal.signedBound - 1 ≤ high) :
    BlamesRead options (Behind Byte.colon) (AtStart .numberOverflow) (integerIn low high) := by
  intro front c e hfront h
  unfold integerIn at h
  split at h
  next hinteger =>
    cases h
    exact (blamesRead_integer hfront hinteger).exact
  next v after hinteger =>
    split at h
    · cases h
    next hrange =>
      cases h
      obtain ⟨gap, hgap, hc⟩ := exists_gap c
      obtain ⟨numeral, hnumeral, hv⟩ := numeral_of_integer hinteger
      refine .at_start (fun _ => rfl) hgap hc ?_
      rw [hnumeral]
      exact .numberOverflow (hfront.append hgap) hv fun h => hrange (by omega)

theorem blamesRead_timestamp :
    BlamesRead options (Behind Byte.colon) (AtStart .numberOverflow) timestamp :=
  blamesRead_integerIn (by decide) (Int.le_refl _)

theorem blamesRead_identifier :
    BlamesRead options (Behind Byte.colon) (AtStart .numberOverflow) identifier := by
  intro front c e hfront h
  unfold identifier at h
  split at h
  next hinteger =>
    cases h
    exact blamesRead_integerIn (Int.le_refl 0) (by decide) hfront hinteger
  · cases h

/-! ### Strings -/

theorem malformed_of_lexeme (h : Quoted.lexeme cs bs = .malformed) : ∃ digits,
    bs = Byte.backslash :: Byte.letterU :: digits ∧ Quoted.codeUnit digits = .malformed := by
  unfold Quoted.lexeme at h
  split at h
  · cases h
  next b rest =>
  split at h
  · cases h
  split at h
  next hb =>
    unfold Quoted.escapeLexeme at h
    split at h
    · cases h
    next u digits =>
    split at h
    next hu =>
      unfold Quoted.unicodeLexeme at h
      split at h
      next hmalformed => exact ⟨digits, by rw [hb, hu], hmalformed⟩
      · cases h
      · repeat' split at h
        all_goals cases h
    · cases h
  · cases h

theorem blamed_of_body {o : Nat} (h : (Quoted.read cs c).ending = .malformed o) (front : Bytes) :
    Blamed options Exact front c (.invalidUnicodeEscape o) := by
  fun_induction Quoted.read cs c generalizing front with
  | case1 | case3 => cases h
  | case2 c text width hlexeme _ body ih =>
      have hsteady := Quoted.steady_lexeme cs c.rest
      rw [hlexeme] at hsteady
      cases hsteady with
      | piece _ hle =>
          have hc : c.rest = c.rest.take width ++ (c.advance width).rest :=
            (List.take_append_drop width c.rest).symm
          exact (ih h (front ++ c.rest.take width)).behind hc (c.reaches_advance hle) fun _ => id
      | run =>
          have hbody : body = ⟨[], .cut 1⟩ := Quoted.read_of_rest_eq_nil (by simp)
          rw [hbody] at h
          cases h
  | case4 c hlexeme =>
      cases h
      obtain ⟨digits, hc, hmalformed⟩ := malformed_of_lexeme hlexeme
      refine .here (fun o ho => (Option.some.inj ho).symm) ?_
      rw [hc]
      exact .invalidUnicodeEscape hmalformed

theorem blamesRead_quoted : BlamesRead options (fun _ => True) Exact (quoted cs arena) := by
  intro front c e _ h
  unfold quoted at h
  split at h
  next hexpect =>
    cases h
    exact blamesRead_expect _ trivial hexpect
  next body hexpect =>
  split at h
  next hdecode =>
    cases h
    simp only [Quoted.decode] at hdecode
    split at hdecode
    · cases hdecode
      exact fun o ho => by cases ho
    split at hdecode
    · cases hdecode
    · cases hdecode
    next offset hend =>
      cases hdecode
      obtain ⟨gap, -, hc⟩ := exists_gap c
      rw [rest_of_expect hexpect, List.append_cons] at hc
      exact (blamed_of_body hend _).behind hc (reaches_of_expect hexpect).1 fun _ => id
  · cases h

/-! ### Skipped values -/

theorem blamed_of_word {u : UInt8} {rest : Bytes} (hc : c.rest = u :: rest)
    (hspace : Byte.isSpace u = false) (h : word c = .error (.fault e)) :
    Blamed options Exact front c e := by
  simp only [word] at h
  split at h
  · cases h
  next b tail hafter =>
  split at h
  next hpos =>
    cases h
    have hcons : c.rest = b :: tail := by
      have hlength : (c.rest.takeWhile fun b => !endsWord b).length = 0 := by
        rw [Cursor.skipWhile] at hpos
        exact Nat.add_eq_left.1 hpos
      have hsplit := List.takeWhile_append_dropWhile (p := fun b => !endsWord b) (l := c.rest)
      rw [List.eq_nil_of_length_eq_zero hlength] at hsplit
      exact hsplit.symm.trans hafter
    obtain ⟨rfl, -⟩ := List.cons.inj (hc.symm.trans hcons)
    refine .here (fun o ho => (Option.some.inj ho).symm) ?_
    rw [hc]
    exact .unexpectedByte hspace
  · cases h

theorem blamed_of_skipToken {nest : Nest} (hskip : c.skipSpace = c)
    (h : skipToken (nestingLimit options.maxNesting) nest c = .error (.fault e)) :
    Blamed options Exact front c e := by
  unfold skipToken at h
  split at h
  · cases h
  next b rest hc =>
  have hspace : Byte.isSpace b = false := isSpace_of_skipSpace (hskip.symm ▸ hc)
  have hunexpected : Blamed options Exact front c (.unexpectedByte b c.pos) := by
    refine .here (fun o ho => (Option.some.inj ho).symm) ?_
    rw [hc]
    exact .unexpectedByte hspace
  split at h
  · split at h
    next hraw =>
      cases h
      exact blamesRead_rawString trivial hraw
    · cases h
  split at h
  next bracket hopen =>
    split at h
    · cases h
      refine .here (fun o ho => (Option.some.inj ho).symm) ?_
      rw [hc, bracket_of_opened? hopen]
      exact .depthExceeded bracket
    · cases h
  · split at h
    · cases h
    · cases h
      exact hunexpected
  · split at h
    · split at h
      · cases h
        exact hunexpected
      · cases h
    · split at h
      next hword =>
        cases h
        exact blamed_of_word hc hspace hword
      · cases h

theorem blamed_of_skipWithin {nest : Nest}
    (h : skipWithin (nestingLimit options.maxNesting) nest c = .error (.fault e)) (front : Bytes) :
    Blamed options Exact front c e := by
  fun_induction skipWithin (nestingLimit options.maxNesting) nest c generalizing front with
  | case1 nest c why htoken =>
      cases h
      exact .past_gap fun _ _ => blamed_of_skipToken c.skipSpace_skipSpace htoken
  | case2 => cases h
  | case3 nest c nest' d htoken _ _ ih =>
      obtain ⟨read, hread, -⟩ := (reaches_of_skipToken htoken).1
      exact .past_gap fun gap _ => (ih h _).behind hread (reaches_of_skipToken htoken).1 fun _ => id

theorem blamesRead_skipValue :
    BlamesRead options (fun _ => True) Exact (skipValue options.maxNesting) :=
  fun front _ _ _ h => blamed_of_skipWithin h front

end Intake.Record
