import Intake.Proofs.Record.Steady.Token
import Intake.Record.Decode

/-!
# Quoted text is steady

A lexeme that is complete is the same in a longer input, with one exception: a run of plain bytes that
reaches the end of the input may go on. Such a run is the last thing before the cut, so it is noticed
only when it does not fit the arena, and then the longer run does not fit either.

A body ends where `closingQuote?` says it does. A fence knows that quote, so inside a fence no run
reaches the end of the input.
-/

namespace Intake.Record

namespace Quoted

/-! ### Hex digits -/

theorem isPlain_of_hexDigit? {b : UInt8} {n : Nat} (h : Byte.hexDigit? b = some n) :
    b ≠ Byte.quote ∧ b ≠ Byte.backslash := by
  constructor
  · rintro rfl
    rw [show Byte.hexDigit? Byte.quote = none by decide] at h
    cases h
  · rintro rfl
    rw [show Byte.hexDigit? Byte.backslash = none by decide] at h
    cases h

theorem length_of_hexDigits {bs : Bytes} {digits : List Nat}
    (h : bs.mapM Byte.hexDigit? = some digits) : digits.length = bs.length := by
  induction bs generalizing digits with
  | nil =>
      cases h
      rfl
  | cons b rest ih =>
      rw [List.mapM_cons] at h
      obtain ⟨n, -, h⟩ := Option.bind_eq_some_iff.1 h
      obtain ⟨ns, hns, h⟩ := Option.bind_eq_some_iff.1 h
      cases h
      rw [List.length_cons, List.length_cons, ih hns]

theorem plain_of_hexDigits {bs : Bytes} {digits : List Nat}
    (h : bs.mapM Byte.hexDigit? = some digits) :
    ∀ b ∈ bs, b ≠ Byte.quote ∧ b ≠ Byte.backslash := by
  induction bs generalizing digits with
  | nil => intro b hb; cases hb
  | cons b rest ih =>
      rw [List.mapM_cons] at h
      obtain ⟨n, hn, h⟩ := Option.bind_eq_some_iff.1 h
      obtain ⟨ns, hns, -⟩ := Option.bind_eq_some_iff.1 h
      intro b' hb'
      rcases List.mem_cons.1 hb' with rfl | hrest
      · exact isPlain_of_hexDigit? hn
      · exact ih hns b' hrest

theorem closingQuote?_of_plain {bs : Bytes} (h : ∀ b ∈ bs, b ≠ Byte.quote ∧ b ≠ Byte.backslash)
    (index : Nat) (rest : Bytes) :
    closingQuote? index (bs ++ rest) = closingQuote? (index + bs.length) rest := by
  induction bs generalizing index with
  | nil => rfl
  | cons b bs ih =>
      obtain ⟨hq, hb⟩ := h b (List.mem_cons_self ..)
      rw [List.cons_append, closingQuote?_plain hq hb,
        ih (fun b hb => h b (List.mem_cons_of_mem _ hb)), List.length_cons, Nat.add_right_comm,
        Nat.add_assoc]

theorem closingQuote?_plain_end {bs : Bytes} (h : ∀ b ∈ bs, b ≠ Byte.quote ∧ b ≠ Byte.backslash)
    (index : Nat) : closingQuote? index bs = none := by
  have happ := closingQuote?_of_plain h index []
  rwa [List.append_nil, closingQuote?_nil] at happ

/-! ### Code units -/

/-- What four hex digits, fewer of them, or other bytes are worth when more input arrives. -/
inductive SteadyUnit (bs : Bytes) : CodeUnit → Prop
  | code {value : Nat} (hmore : ∀ more, codeUnit (bs ++ more) = .code value) (hfour : 4 ≤ bs.length)
      (hplain : ∀ b ∈ bs.take 4, b ≠ Byte.quote ∧ b ≠ Byte.backslash) : SteadyUnit bs (.code value)
  | short {missing : Nat} (hpos : 0 < missing)
      (hplain : ∀ b ∈ bs, b ≠ Byte.quote ∧ b ≠ Byte.backslash) : SteadyUnit bs (.short missing)
  | malformed (hmore : ∀ more, codeUnit (bs ++ more) = .malformed) : SteadyUnit bs .malformed

theorem steady_codeUnit (bs : Bytes) : SteadyUnit bs (codeUnit bs) := by
  cases hd : (bs.take 4).mapM Byte.hexDigit? with
  | none =>
      have hmore : ∀ more, codeUnit (bs ++ more) = .malformed := fun more => by
        simp only [codeUnit, List.take_append, List.mapM_append, hd, Option.bind_eq_bind,
          Option.bind_none]
      have hbs := hmore []
      rw [List.append_nil] at hbs
      rw [hbs]
      exact .malformed hmore
  | some digits =>
      have hlen := length_of_hexDigits hd
      have hplain := plain_of_hexDigits hd
      rw [List.length_take] at hlen
      by_cases hshort : digits.length < 4
      · simp only [codeUnit, hd, if_pos hshort]
        refine .short (by omega) fun b hb => hplain b ?_
        rwa [List.take_of_length_le (by omega)]
      · simp only [codeUnit, hd, if_neg hshort]
        have hfour : 4 ≤ bs.length := by omega
        refine .code (fun more => ?_) hfour hplain
        simp only [codeUnit, List.take_append_of_le_length hfour, hd, if_neg hshort]

theorem closingQuote?_unit {digits : Bytes} (hfour : 4 ≤ digits.length)
    (hplain : ∀ b ∈ digits.take 4, b ≠ Byte.quote ∧ b ≠ Byte.backslash) (index : Nat) :
    closingQuote? index (Byte.backslash :: Byte.letterU :: digits) =
      closingQuote? (index + 6) (digits.drop 4) := by
  rw [closingQuote?_escape]
  conv => lhs; rw [← List.take_append_drop 4 digits]
  rw [closingQuote?_of_plain hplain, List.length_take, Nat.min_eq_left hfour]

/-- What the bytes behind a high surrogate are worth when more input arrives. -/
inductive SteadyHalf (bs : Bytes) : LowHalf → Prop
  | code {value : Nat} (hmore : ∀ more, lowHalf (bs ++ more) = .code value) (hsix : 6 ≤ bs.length)
      (hquote : ∀ index, closingQuote? index bs = closingQuote? (index + 6) (bs.drop 6)) :
      SteadyHalf bs (.code value)
  | short {missing : Nat} (hpos : 0 < missing) (hquote : ∀ index, closingQuote? index bs = none) :
      SteadyHalf bs (.short missing)
  | missing (hmore : ∀ more, lowHalf (bs ++ more) = .missing) : SteadyHalf bs .missing

theorem steady_lowHalf_unit (digits : Bytes) : SteadyHalf (Byte.backslash :: Byte.letterU :: digits)
    (lowHalf (Byte.backslash :: Byte.letterU :: digits)) := by
  have hunit := steady_codeUnit digits
  generalize hcode : codeUnit digits = unit at hunit
  cases hunit with
  | @code value hmore hfour hplain =>
      rw [lowHalf_of_code hcode]
      by_cases hlow : isLowSurrogate value
      · rw [if_pos hlow]
        refine .code (fun more => ?_) (by simpa using hfour) (closingQuote?_unit hfour hplain)
        exact (lowHalf_of_code (hmore more)).trans (if_pos hlow)
      · rw [if_neg hlow]
        exact .missing fun more => (lowHalf_of_code (hmore more)).trans (if_neg hlow)
  | short hpos hplain =>
      rw [lowHalf_of_short hcode]
      refine .short hpos fun index => ?_
      rw [closingQuote?_escape]
      exact closingQuote?_plain_end hplain _
  | malformed hmore =>
      rw [lowHalf_of_malformed hcode]
      exact .missing fun more => lowHalf_of_malformed (hmore more)

theorem steady_lowHalf (bs : Bytes) : SteadyHalf bs (lowHalf bs) := by
  match bs with
  | [] => exact .short (by decide) closingQuote?_nil
  | b :: bs =>
      by_cases hb : b = Byte.backslash
      · subst hb
        match bs with
        | [] => exact .short (by decide) fun index => by rw [closingQuote?.eq_def]; rfl
        | u :: digits =>
            by_cases hu : u = Byte.letterU
            · subst hu
              exact steady_lowHalf_unit digits
            · rw [lowHalf_of_escape hu]
              exact .missing fun more => lowHalf_of_escape hu (digits ++ more)
      · rw [lowHalf_of_ne hb]
        exact .missing fun more => lowHalf_of_ne hb (bs ++ more)

/-! ### Lexemes -/

/-- What a lexeme at the front of `bs` is worth when more input arrives. -/
inductive SteadyLexeme (cs : Bool) (bs : Bytes) : Lexeme → Prop
  | close (hmore : ∀ more, lexeme cs (bs ++ more) = .close)
      (hquote : ∀ index, closingQuote? index bs = some index) : SteadyLexeme cs bs .close
  | piece {text : Bytes} {width : Nat} (hmore : ∀ more, lexeme cs (bs ++ more) = .piece text width)
      (hle : width ≤ bs.length)
      (hquote : ∀ index, closingQuote? index bs = closingQuote? (index + width) (bs.drop width)) :
      SteadyLexeme cs bs (.piece text width)
  /-- A run that the input cuts off. -/
  | run {text : Bytes}
      (hmore : ∀ more, ∃ tail width, lexeme cs (bs ++ more) = .piece (text ++ tail) width)
      (hquote : ∀ index, closingQuote? index bs = none) :
      SteadyLexeme cs bs (.piece text bs.length)
  | cut {missing : Nat} (hpos : 0 < missing) (hquote : ∀ index, closingQuote? index bs = none) :
      SteadyLexeme cs bs (.cut missing)
  | malformed (hmore : ∀ more, lexeme cs (bs ++ more) = .malformed) : SteadyLexeme cs bs .malformed

theorem lexeme_unit (cs : Bool) (digits : Bytes) :
    lexeme cs (Byte.backslash :: Byte.letterU :: digits) = unicodeLexeme cs digits := rfl

theorem steady_unit_of_code {cs : Bool} {digits : Bytes} {value : Nat}
    (hcode : codeUnit digits = .code value) (hmore : ∀ more, codeUnit (digits ++ more) = .code value)
    (hfour : 4 ≤ digits.length)
    (hplain : ∀ b ∈ digits.take 4, b ≠ Byte.quote ∧ b ≠ Byte.backslash) :
    SteadyLexeme cs (Byte.backslash :: Byte.letterU :: digits) (unicodeLexeme cs digits) := by
  have hquote := closingQuote?_unit hfour hplain
  have hmark : ∀ more, lexeme cs (Byte.backslash :: Byte.letterU :: digits ++ more) =
      unicodeLexeme cs (digits ++ more) := fun more => lexeme_unit cs (digits ++ more)
  have hdrop : ∀ more, (digits ++ more).drop 4 = digits.drop 4 ++ more := fun more =>
    List.drop_append_of_le_length hfour
  have hhalf := steady_lowHalf (digits.drop 4)
  generalize hlow : lowHalf (digits.drop 4) = half at hhalf
  -- What follows decides only if this is the first half of a pair.
  by_cases hlone : cs → isHighSurrogate value → half = .missing
  · rw [unicodeLexeme_of_lone hcode fun hcs hhigh => hlow.trans (hlone hcs hhigh)]
    refine .piece (fun more => ?_) (by simpa using hfour) hquote
    rw [hmark]
    refine unicodeLexeme_of_lone (hmore more) fun hcs hhigh => ?_
    rw [hlone hcs hhigh] at hhalf
    cases hhalf with
    | missing hmissing => rw [hdrop, hmissing]
  · simp only [Classical.not_imp] at hlone
    obtain ⟨hcs, hhigh, hne⟩ := hlone
    cases hhalf with
    | code hmoreLow hsix hquoteLow =>
        rw [unicodeLexeme_of_pair hcode hcs hhigh hlow]
        rw [List.length_drop] at hsix
        refine .piece (fun more => ?_) (by simp; omega) fun index => ?_
        · rw [hmark]
          apply unicodeLexeme_of_pair (hmore more) hcs hhigh
          rw [hdrop, hmoreLow]
        · rw [hquote, hquoteLow, List.drop_drop]
          rfl
    | short hpos hquoteLow =>
        rw [unicodeLexeme_of_short hcode hcs hhigh hlow]
        exact .cut hpos fun index => by rw [hquote, hquoteLow]
    | missing => exact absurd rfl hne

theorem steady_unit (cs : Bool) (digits : Bytes) :
    SteadyLexeme cs (Byte.backslash :: Byte.letterU :: digits) (unicodeLexeme cs digits) := by
  have hunit := steady_codeUnit digits
  generalize hcode : codeUnit digits = unit at hunit
  cases hunit with
  | code hmore hfour hplain => exact steady_unit_of_code hcode hmore hfour hplain
  | short hpos hplain =>
      rw [unicodeLexeme, hcode]
      refine .cut hpos fun index => ?_
      rw [closingQuote?_escape]
      exact closingQuote?_plain_end hplain _
  | malformed hmore =>
      rw [unicodeLexeme, hcode]
      refine .malformed fun more => ?_
      rw [List.cons_append, List.cons_append, lexeme_unit, unicodeLexeme, hmore]

theorem plain_of_run (bs : Bytes) :
    ∀ b ∈ bs.takeWhile isPlain, b ≠ Byte.quote ∧ b ≠ Byte.backslash := by
  intro b hb
  have hplain := List.all_eq_true.1 (List.all_takeWhile (p := isPlain) (l := bs)) b hb
  simpa [isPlain] using hplain

theorem lexeme_of_plain {cs : Bool} {b : UInt8} (hq : b ≠ Byte.quote) (hb : b ≠ Byte.backslash)
    (rest : Bytes) : lexeme cs (b :: rest) =
      .piece ((b :: rest).takeWhile isPlain) ((b :: rest).takeWhile isPlain).length := by
  rw [lexeme, if_neg hq, if_neg hb]

theorem steady_run {cs : Bool} {b : UInt8} (hq : b ≠ Byte.quote) (hb : b ≠ Byte.backslash)
    (rest : Bytes) : SteadyLexeme cs (b :: rest) (lexeme cs (b :: rest)) := by
  have hplain := plain_of_run (b :: rest)
  have hpre := List.takeWhile_prefix isPlain (l := b :: rest)
  have hmore : ∀ more, lexeme cs (b :: rest ++ more) =
      .piece ((b :: rest ++ more).takeWhile isPlain) ((b :: rest ++ more).takeWhile isPlain).length :=
    fun more => lexeme_of_plain hq hb (rest ++ more)
  rw [lexeme_of_plain hq hb]
  by_cases hall : ((b :: rest).takeWhile isPlain).length = (b :: rest).length
  · rw [hpre.eq_of_length hall] at hplain ⊢
    refine .run (fun more => ?_) fun index => closingQuote?_plain_end hplain index
    exact ⟨more.takeWhile isPlain, _, by rw [hmore, List.takeWhile_append, if_pos hall]⟩
  · have hsplit := List.takeWhile_append_dropWhile (p := isPlain) (l := b :: rest)
    refine .piece (fun more => ?_) hpre.length_le fun index => ?_
    · rw [hmore, List.takeWhile_append, if_neg hall]
    · have hdrop := congrArg (List.drop ((b :: rest).takeWhile isPlain).length) hsplit
      rw [List.drop_left] at hdrop
      rw [← hdrop, ← closingQuote?_of_plain hplain, hsplit]

theorem steady_lexeme (cs : Bool) (bs : Bytes) : SteadyLexeme cs bs (lexeme cs bs) := by
  match bs with
  | [] => exact .cut Nat.one_pos closingQuote?_nil
  | b :: rest =>
      by_cases hq : b = Byte.quote
      · subst hq
        exact .close (fun more => rfl) fun index => closingQuote?_quote index rest
      by_cases hb : b = Byte.backslash
      · subst hb
        match rest with
        | [] =>
            refine .cut Nat.one_pos fun index => ?_
            rw [closingQuote?.eq_def]
            rfl
        | e :: rest =>
            by_cases he : e = Byte.letterU
            · subst he
              exact steady_unit cs rest
            · have hesc : ∀ rest, lexeme cs (Byte.backslash :: e :: rest) = .piece [unescape e] 2 :=
                fun _ => if_neg he
              rw [hesc]
              refine .piece (fun more => hesc (rest ++ more)) (by simp) fun index => ?_
              exact closingQuote?_escape index e rest
      · exact steady_run hq hb rest

/-! ### Bodies -/

/-- The same ending in a longer input. -/
def Ending.append (more : Bytes) : Ending → Ending
  | .closed after => .closed (after.append more)
  | .cut missing => .cut missing
  | .malformed offset => .malformed offset

/-- A body that the input does not cut off is the same in a longer input. -/
theorem read_append {cs : Bool} {c : Cursor} (h : ∀ missing, (read cs c).ending ≠ .cut missing)
    (more : Bytes) : read cs (c.append more) =
      ⟨(read cs c).pieces, (read cs c).ending.append more⟩ := by
  fun_induction read cs c with
  | case1 c hc =>
      have hlex := steady_lexeme cs c.rest
      rw [hc] at hlex
      cases hlex with
      | close hmore hquote =>
          have hlen : 1 ≤ c.rest.length := by
            have := (lt_length_of_closingQuote? (hquote 0)).2
            omega
          rw [read_eq, Cursor.rest_append, hmore, Cursor.append_advance hlen]
          rfl
  | case2 c text width hc _ body ih =>
      have hlex := steady_lexeme cs c.rest
      rw [hc] at hlex
      cases hlex with
      | piece hmore hle =>
          rw [read_eq, Cursor.rest_append, hmore]
          dsimp only
          rw [Cursor.append_advance hle, ih h]
      | run =>
          have hend : (c.advance c.rest.length).rest = [] := by simp
          exact absurd (congrArg Body.ending (read_of_rest_eq_nil hend)) (h 1)
  | case3 c missing hc => exact absurd rfl (h missing)
  | case4 c hc =>
      have hlex := steady_lexeme cs c.rest
      rw [hc] at hlex
      cases hlex with
      | malformed hmore =>
          rw [read_eq, Cursor.rest_append, hmore]
          rfl

theorem closingQuote?_shift (bs : Bytes) (start width : Nat) :
    closingQuote? (start + width) bs = (closingQuote? start bs).map (· + width) := by
  fun_induction closingQuote? start bs with
  | case1 => rw [closingQuote?_nil]; rfl
  | case2 => rw [closingQuote?_quote]; rfl
  | case3 start =>
      rw [closingQuote?.eq_def]
      rfl
  | case4 start b rest _ ih =>
      rw [closingQuote?_escape, Nat.add_right_comm]
      exact ih
  | case5 start b rest hq hb ih =>
      rw [closingQuote?_plain hq hb, Nat.add_right_comm]
      exact ih

/-- A body ends with the quote that closes it, or it has none. -/
theorem closingQuote?_of_read (cs : Bool) (c : Cursor) :
    match (read cs c).ending with
    | .closed after => ∃ index, closingQuote? 0 c.rest = some index ∧ after = c.advance (index + 1)
    | .cut missing => 0 < missing ∧ closingQuote? 0 c.rest = none
    | .malformed _ => True := by
  fun_induction read cs c with
  | case1 c hc =>
      have hlex := steady_lexeme cs c.rest
      rw [hc] at hlex
      cases hlex with
      | close _ hquote => exact ⟨0, hquote 0, rfl⟩
  | case2 c text width hc _ body ih =>
      have hlex := steady_lexeme cs c.rest
      rw [hc] at hlex
      cases hlex with
      | piece _ _ hquote =>
          have hshift : closingQuote? 0 c.rest =
              (closingQuote? 0 (c.advance width).rest).map (· + width) := by
            rw [hquote, closingQuote?_shift, Cursor.advance_rest]
          dsimp only
          cases hend : body.ending with
          | closed after =>
              rw [hend] at ih
              obtain ⟨index, hindex, rfl⟩ := ih
              refine ⟨index + width, by rw [hshift, hindex]; rfl, ?_⟩
              rw [Cursor.advance_advance]
              congr 1
              omega
          | cut missing =>
              rw [hend] at ih
              exact ⟨ih.1, by rw [hshift, ih.2]; rfl⟩
          | malformed => trivial
      | run _ hquote =>
          have hend : (c.advance c.rest.length).rest = [] := by simp
          have hbody : body = ⟨[], .cut 1⟩ := read_of_rest_eq_nil hend
          rw [hbody]
          exact ⟨Nat.one_pos, hquote 0⟩
  | case3 c missing hc =>
      have hlex := steady_lexeme cs c.rest
      rw [hc] at hlex
      cases hlex with
      | cut hpos hquote => exact ⟨hpos, hquote 0⟩
  | case4 => trivial

/-! ### The arena -/

theorem extend_append {arena : Arena} {text : Bytes} {o : Overflow} (h : arena.extend text = .error o)
    (tail : Bytes) : ∃ p, arena.extend (text ++ tail) = .error p ∧ o.Grows p := by
  unfold Arena.extend at h ⊢
  split at h
  · cases h
  next hfit =>
    cases h
    refine ⟨_, if_neg ?_, rfl, ?_⟩
    · rw [List.length_append]
      omega
    · rw [List.length_append]
      dsimp only
      omega

theorem overflow_append {cs : Bool} {c : Cursor} {arena : Arena} {o : Overflow}
    (h : arena.extendAll (read cs c).pieces = .error o) (more : Bytes) :
    ∃ p, arena.extendAll (read cs (c.append more)).pieces = .error p ∧ o.Grows p := by
  fun_induction read cs c generalizing arena
  case case1 => cases h
  case case2 c text width hc _ body ih =>
      have hlex := steady_lexeme cs c.rest
      rw [hc] at hlex
      rw [Arena.extendAll_cons] at h
      cases hlex with
      | piece hmore hle =>
          rw [read_eq, Cursor.rest_append, hmore]
          dsimp only
          rw [Arena.extendAll_cons, Cursor.append_advance hle]
          cases hext : arena.extend text with
          | error o' =>
              rw [hext] at h
              cases h
              exact ⟨o, rfl, rfl, Nat.le_refl _⟩
          | ok arena' =>
              rw [hext] at h
              exact ih h
      | run hmore =>
          have hend : (c.advance c.rest.length).rest = [] := by simp
          have hnone : body.pieces = [] := congrArg Body.pieces (read_of_rest_eq_nil hend)
          obtain ⟨tail, width, hmore⟩ := hmore more
          rw [read_eq, Cursor.rest_append, hmore]
          dsimp only
          cases hext : arena.extend text with
          | error o' =>
              rw [hext] at h
              cases h
              obtain ⟨p, hp, hgrow⟩ := extend_append hext tail
              exact ⟨p, by rw [Arena.extendAll_cons, hp], hgrow⟩
          | ok arena' =>
              rw [hext, hnone] at h
              cases h
  case case3 => cases h
  case case4 => cases h

/-! ### Decoding -/

section Decode

variable {cs : Bool} {arena written : Arena} {c after : Cursor} {span : Span}

theorem decode_of_rest_eq_nil (h : c.rest = []) : decode cs arena c = .error (.incomplete 1) := by
  rw [decode, read_of_rest_eq_nil h]
  rfl

theorem decode_append_of_ok (h : decode cs arena c = .ok (span, written, after)) (more : Bytes) :
    decode cs arena (c.append more) = .ok (span, written, after.append more) := by
  simp only [decode] at h
  split at h
  · cases h
  next hext =>
  split at h
  next hend =>
    cases h
    have hnocut : ∀ missing, (read cs c).ending ≠ .cut missing := by simp [hend]
    simp only [decode, read_append hnocut, hext, hend, Ending.append]
  · cases h
  · cases h

theorem decode_append_of_fault {e : Fault} (h : decode cs arena c = .error (.fault e)) (more : Bytes) :
    ∃ e', decode cs arena (c.append more) = .error (.fault e') ∧ e.Grows e' := by
  simp only [decode] at h
  split at h
  next hext =>
    cases h
    obtain ⟨p, hp, hgrow⟩ := overflow_append hext more
    exact ⟨.capacityExceeded p, by simp only [decode, hp], .longer hgrow⟩
  next hext =>
  split at h
  · cases h
  · cases h
  next hend =>
    cases h
    have hnocut : ∀ missing, (read cs c).ending ≠ .cut missing := by simp [hend]
    exact ⟨_, by simp only [decode, read_append hnocut, hext, hend, Ending.append], .same _⟩

end Decode

end Quoted

theorem quoted_eq {cs : Bool} {arena : Arena} {c : Cursor} {rest : Bytes}
    (h : c.skipSpace.rest = Byte.quote :: rest) : quoted cs arena c =
      match Quoted.decode cs arena (c.skipSpace.advance 1) with
      | .error why => .error why
      | .ok (span, written, after) => .ok ((span, written), after) := by
  rw [quoted, expect_of_cons h]
  rfl

section Body

variable {F : Fence} {cs : Bool} {arena : Arena} {c : Cursor} {index : Nat} {rest : Bytes}

theorem Quoted.not_cut_of_closingQuote? (h : closingQuote? 0 c.rest = some index) (missing : Nat) :
    (Quoted.read cs c).ending ≠ .cut missing := by
  intro hcut
  have hquote := Quoted.closingQuote?_of_read cs c
  rw [hcut] at hquote
  rw [hquote.2] at h
  cases h

theorem Quoted.closed_of_closingQuote? {after : Cursor} (h : closingQuote? 0 c.rest = some index)
    (hend : (Quoted.read cs c).ending = .closed after) : after = c.advance (index + 1) := by
  have hquote := Quoted.closingQuote?_of_read cs c
  rw [hend] at hquote
  obtain ⟨index', hindex, rfl⟩ := hquote
  rw [h, Option.some.injEq] at hindex
  rw [hindex]

/-- A fence knows the quote that closes a string. -/
theorem closingQuote?_of_inside {k : Nat} (hk : F.inside (k + 1) c)
    (hc : c.skipSpace.rest = Byte.quote :: rest) :
    ∃ index, closingQuote? 0 (c.skipSpace.advance 1).rest = some index ∧
      F.inside (k + 1) ((c.skipSpace.advance 1).advance (index + 1)) := by
  obtain ⟨index, hindex, hin⟩ := F.string (F.inside_skipSpace hk) hc
  refine ⟨index, ?_, ?_⟩
  · rw [Cursor.rest_advance_one hc]
    exact hindex
  · rw [Cursor.advance_advance, Nat.add_comm 1 (index + 1)]
    exact hin

theorem steady_body (cs : Bool) (arena : Arena) (hc : c.skipSpace.rest = Byte.quote :: rest) :
    SteadyAnswer F 1 1 (quoted cs arena) c (quoted cs arena c) := by
  have hclose (k : Nat) (hk : F.inside (k + 1) c) := closingQuote?_of_inside hk hc
  have hquote := Quoted.closingQuote?_of_read cs (c.skipSpace.advance 1)
  have hcmore : ∀ more, (c.append more).skipSpace.rest = Byte.quote :: (rest ++ more) := fun more => by
    rw [Cursor.append_skipSpace hc, Cursor.rest_append, hc, List.cons_append]
  have hmore : ∀ more, (c.append more).skipSpace.advance 1 = (c.skipSpace.advance 1).append more :=
    fun more => by rw [Cursor.append_skipSpace hc, Cursor.append_advance_one hc]
  rw [quoted_eq hc]
  generalize c.skipSpace.advance 1 = body at hclose hquote hmore
  cases hext : arena.extendAll (Quoted.read cs body).pieces with
  | error o =>
      simp only [Quoted.decode, hext]
      refine .fault fun more => ?_
      obtain ⟨p, hp, hgrow⟩ := Quoted.overflow_append hext more
      refine ⟨.capacityExceeded p, ?_, .longer hgrow, fun k hk => ?_⟩
      · simp only [quoted_eq (hcmore more), hmore, Quoted.decode, hp]
      · obtain ⟨index, hindex, -⟩ := hclose k hk
        rw [Quoted.read_append (Quoted.not_cut_of_closingQuote? hindex), hext] at hp
        cases hp
        rfl
  | ok written =>
      cases hend : (Quoted.read cs body).ending with
      | closed after =>
          have hnocut : ∀ missing, (Quoted.read cs body).ending ≠ .cut missing := by
            simp [hend]
          simp only [Quoted.decode, hext, hend]
          refine .ok (fun more => ?_) fun k hk => ?_
          · simp only [quoted_eq (hcmore more), hmore, Quoted.decode, Quoted.read_append hnocut, hext,
              hend, Quoted.Ending.append]
          · obtain ⟨index, hindex, hin⟩ := hclose k hk
            exact Quoted.closed_of_closingQuote? hindex hend ▸ hin
      | cut missing =>
          simp only [Quoted.decode, hext, hend]
          rw [hend] at hquote
          refine .incomplete hquote.1 fun k hk => ?_
          obtain ⟨index, hindex, -⟩ := hclose k hk
          exact Quoted.not_cut_of_closingQuote? hindex missing hend
      | malformed offset =>
          have hnocut : ∀ missing, (Quoted.read cs body).ending ≠ .cut missing := by
            simp [hend]
          simp only [Quoted.decode, hext, hend]
          exact .fixed fun more => by
            simp only [quoted_eq (hcmore more), hmore, Quoted.decode, Quoted.read_append hnocut, hext,
              hend, Quoted.Ending.append]

end Body

theorem steady_quoted {F : Fence} (cs : Bool) (arena : Arena) : Steady F 1 1 (quoted cs arena) := by
  intro c
  cases hc : c.skipSpace.rest with
  | nil =>
      simp only [quoted, expect_of_nil hc]
      exact .incomplete Nat.one_pos fun k hk => F.rest_ne_nil (F.inside_skipSpace hk) hc
  | cons a rest =>
      by_cases ha : a = Byte.quote
      · subst ha
        exact steady_body cs arena hc
      · have hcmore : ∀ more, (c.append more).skipSpace.rest = a :: (rest ++ more) := fun more => by
          simp only [Cursor.append_skipSpace hc, Cursor.rest_append, hc, List.cons_append]
        simp only [quoted, expect_of_cons hc, if_neg ha]
        exact .fixed fun more => by
          simp only [quoted, expect_of_cons (hcmore more), if_neg ha, Cursor.append_skipSpace hc,
            Cursor.pos_append]

end Intake.Record
