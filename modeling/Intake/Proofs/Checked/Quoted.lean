import Intake.Proofs.Checked.Arena
import Intake.Proofs.Checked.Token
import Intake.Proofs.Record.Grammar.Quoted

/-!
# Quoted text by position

The loop over the body of a string slices out runs of plain bytes, looks at most twelve bytes ahead of
an escape, and works on code points in words of 32 bits. It writes what it has read as it goes, so a body
that is cut short or broken has to be taken back from the arena in the end.

Four digits make a code unit below `0x10000` and a surrogate pair stands for a code point below
`0x110000`, so every code point has a place in the layout of UTF-8.
-/

namespace Intake

theorem Byte.lt_of_hexDigit? {b : UInt8} {digit : Nat} (h : Byte.hexDigit? b = some digit) :
    digit < 16 := by
  have hbound : b.toNat < 256 := b.toNat_lt
  simp only [Byte.hexDigit?, Byte.isDigit, Bool.and_eq_true, decide_eq_true_eq,
    UInt8.le_iff_toNat_le] at h
  repeat' split at h
  all_goals simp only [Option.some.injEq, reduceCtorEq] at h
  all_goals simp only [Byte.zero, Byte.nine, UInt8.reduceToNat] at *
  all_goals omega

namespace Checked

open Record.Quoted (CodeUnit LowHalf Lexeme isPlain isHighSurrogate isLowSurrogate unescape)

variable {input : Bytes} {p : Nat}

/-! ### Code units -/

/-- The value of a letter that counts from ten, the first of which is `first`. -/
def hexLetter (first b : UInt8) : Checked Nat := do
  sum (← difference b.toNat first.toNat) 10

/-- The value of a hex digit of either case. -/
def hexDigit (b : UInt8) : Checked (Option Nat) := do
  if Byte.isDigit b then return some (← difference b.toNat Byte.zero.toNat)
  else if 0x61 ≤ b && b ≤ 0x66 then return some (← hexLetter 0x61 b)
  else if 0x41 ≤ b && b ≤ 0x46 then return some (← hexLetter 0x41 b)
  else return none

theorem hexLetter_eq {first b : UInt8} (h : first ≤ b) :
    hexLetter first b = .ok (b.toNat - first.toNat + 10) := by
  have hbound : b.toNat < 256 := b.toNat_lt
  have hlt : b.toNat - first.toNat + 10 < Decimal.unsignedBound := by
    simp only [Decimal.unsignedBound]
    omega
  rw [hexLetter, difference_of_le (UInt8.le_iff_toNat_le.1 h), ok_bind, sum_of_lt hlt]

theorem hexDigit_eq (b : UInt8) : hexDigit b = .ok (Byte.hexDigit? b) := by
  unfold hexDigit Byte.hexDigit?
  split
  next hdigit =>
    rw [difference_of_le (zero_le_of_isDigit hdigit)]
    rfl
  split
  next hlower =>
    simp only [Bool.and_eq_true, decide_eq_true_eq] at hlower
    rw [hexLetter_eq hlower.1]
    rfl
  split
  next hupper =>
    simp only [Bool.and_eq_true, decide_eq_true_eq] at hupper
    rw [hexLetter_eq hupper.1]
    rfl
  · rfl

/-- The number that hex digits spell behind those of `value`. -/
def hexValue (value : Nat) : Bytes → Checked (Option Nat)
  | [] => return some value
  | b :: bs => do
    match ← hexDigit b with
    | none => return none
    | some digit => hexValue ((← shift value 4) ||| digit) bs

theorem shiftLeft_four (n : Nat) : n <<< 4 = n * 16 := Nat.shiftLeft_eq n 4

theorem shiftLeft_mono {m n : Nat} (h : m ≤ n) (places : Nat) : m <<< places ≤ n <<< places := by
  rw [Nat.shiftLeft_eq, Nat.shiftLeft_eq]
  exact Nat.mul_le_mul_right _ h

/-- As long as the digits have room in a word, no bit is lost. -/
theorem hexValue_eq {value : Nat} {bs : Bytes}
    (h : (value + 1) <<< (4 * bs.length) ≤ Decimal.unsignedBound) :
    hexValue value bs =
        .ok ((bs.mapM Byte.hexDigit?).map (·.foldl (fun value digit => value * 16 + digit) value)) ∧
      ∀ digits, bs.mapM Byte.hexDigit? = some digits →
        digits.foldl (fun value digit => value * 16 + digit) value <
          (value + 1) <<< (4 * bs.length) := by
  induction bs generalizing value with
  | nil =>
      refine ⟨rfl, fun digits hdigits => ?_⟩
      cases hdigits
      exact Nat.lt_succ_self value
  | cons b bs ih =>
      rw [hexValue, hexDigit_eq, ok_bind, List.mapM_cons]
      cases hdigit : Byte.hexDigit? b with
      | none => exact ⟨rfl, fun digits hdigits => absurd hdigits (Option.some_ne_none _).symm⟩
      | some digit =>
          have hlt := Byte.lt_of_hexDigit? hdigit
          have hroom : (value + 1) <<< (4 * (b :: bs).length) =
              (value * 16 + 16) <<< (4 * bs.length) := by
            have hlength : 4 * (b :: bs).length = 4 + 4 * bs.length := by
              rw [List.length_cons, Nat.mul_succ, Nat.add_comm]
            rw [hlength, Nat.shiftLeft_add, shiftLeft_four, Nat.succ_mul]
          rw [hroom] at h ⊢
          have hnext : (value * 16 + digit + 1) <<< (4 * bs.length) ≤
              (value * 16 + 16) <<< (4 * bs.length) := shiftLeft_mono (by omega) _
          have hword : value <<< 4 < Decimal.unsignedBound := by
            have hle : value * 16 + 16 ≤ (value * 16 + 16) <<< (4 * bs.length) := Nat.le_shiftLeft
            rw [shiftLeft_four]
            omega
          have hor : value <<< 4 ||| digit = value * 16 + digit := by
            rw [← Nat.shiftLeft_add_eq_or_of_lt hlt, shiftLeft_four]
          obtain ⟨hcode, hbound⟩ := ih (Nat.le_trans hnext h)
          dsimp only
          rw [shift_of_lt (by decide) hword, ok_bind, hor, hcode]
          refine ⟨?_, fun digits hdigits => ?_⟩
          · cases bs.mapM Byte.hexDigit? <;> rfl
          · obtain ⟨first, hfirst, hmore⟩ := Option.bind_eq_some_iff.1 hdigits
            obtain ⟨rest, hrest, hcons⟩ := Option.bind_eq_some_iff.1 hmore
            cases hfirst
            cases hcons
            exact Nat.lt_of_lt_of_le (hbound rest hrest) hnext

/-- Four hex digits at a position, or as many as there are. -/
def codeUnit (input : Bytes) (p : Nat) : Checked CodeUnit := do
  let rest := input.drop p
  let available := min rest.length 4
  match ← hexValue 0 (← slice rest 0 available) with
  | none => return .malformed
  | some value =>
    if available < 4 then return .short (← difference 4 available) else return .code value

theorem room_of_length {bs : Bytes} (h : bs.length ≤ 4) :
    (0 + 1) <<< (4 * bs.length) ≤ 0x10000 := by
  have hle : (0 + 1) <<< (4 * bs.length) ≤ (0 + 1) <<< (4 * 4) := by
    rw [Nat.shiftLeft_eq, Nat.shiftLeft_eq]
    exact Nat.mul_le_mul_left _ (Nat.pow_le_pow_right (by decide) (Nat.mul_le_mul_left 4 h))
  exact hle

theorem codeUnit_eq (input : Bytes) (p : Nat) :
    codeUnit input p = .ok (Record.Quoted.codeUnit (input.drop p)) := by
  have hfour : ((input.drop p).take 4).length ≤ 4 := List.length_take_le ..
  have hroom := Nat.le_trans (room_of_length hfour) (show _ ≤ Decimal.unsignedBound by decide)
  have htake : (input.drop p).take (min (input.drop p).length 4) = (input.drop p).take 4 := by
    rw [List.take_eq_take_iff, Nat.min_comm]
    omega
  have hlength : ((input.drop p).take 4).length = min (input.drop p).length 4 := by
    rw [List.length_take, Nat.min_comm]
  simp only [codeUnit, slice_zero (Nat.min_le_left _ _), ok_bind, htake, (hexValue_eq hroom).1,
    Record.Quoted.codeUnit]
  cases hdigits : ((input.drop p).take 4).mapM Byte.hexDigit? with
  | none => rfl
  | some digits =>
      rw [← hlength, ← Record.Quoted.length_of_hexDigits hdigits]
      dsimp only [Option.map_some]
      split
      next hshort =>
        rw [difference_of_le (Nat.le_of_lt hshort)]
        rfl
      · rfl

theorem lt_of_codeUnit {bs : Bytes} {value : Nat} (h : Record.Quoted.codeUnit bs = .code value) :
    value < 0x10000 := by
  have hfour : (bs.take 4).length ≤ 4 := List.length_take_le ..
  have hroom := room_of_length hfour
  unfold Record.Quoted.codeUnit at h
  split at h
  · cases h
  next digits hdigits =>
    split at h
    · cases h
    · cases h
      exact Nat.lt_of_lt_of_le
        ((hexValue_eq (Nat.le_trans hroom (by decide))).2 digits hdigits) hroom

/-! ### Surrogates -/

/-- The low half of a surrogate pair at a position. -/
def lowHalf (input : Bytes) (p : Nat) : Checked LowHalf := do
  let rest ← sliceFrom input (min p input.length)
  let head ← slice rest 0 (min rest.length 2)
  if head.isPrefixOf [Byte.backslash, Byte.letterU] then
    if head.length < 2 then return .short (← difference 6 head.length)
    else
      match ← codeUnit input (p + 2) with
      | .code value => return if isLowSurrogate value then .code value else .missing
      | .short missing => return .short missing
      | .malformed => return .missing
  else return .missing

theorem lowHalf_eq (input : Bytes) (p : Nat) :
    lowHalf input p = .ok (Record.Quoted.lowHalf (input.drop p)) := by
  have hmin : input.drop (min p input.length) = input.drop p := by
    rcases Nat.le_total p input.length with hle | hge
    · rw [Nat.min_eq_left hle]
    · rw [Nat.min_eq_right hge, List.drop_length, List.drop_eq_nil_iff.2 hge]
  have htail : input.drop (p + 2) = (input.drop p).drop 2 := (List.drop_drop ..).symm
  rw [lowHalf, sliceFrom_of_le (Nat.min_le_right _ _), ok_bind, hmin,
    slice_zero (Nat.min_le_left _ _), ok_bind, codeUnit_eq, htail]
  rcases input.drop p with _ | ⟨b, _ | ⟨u, digits⟩⟩
  · rfl
  · by_cases hb : b = Byte.backslash
    · subst hb
      rfl
    · have hprefix : ¬ [b].isPrefixOf [Byte.backslash, Byte.letterU] = true := by
        simp [List.isPrefixOf, hb]
      rw [Record.Quoted.lowHalf_of_ne hb]
      exact if_neg hprefix
  · have htwo : min (b :: u :: digits).length 2 = 2 := Nat.min_eq_right (Nat.le_add_left 2 _)
    rw [htwo]
    by_cases hescape : b = Byte.backslash ∧ u = Byte.letterU
    · obtain ⟨rfl, rfl⟩ := hescape
      have hdrop : (Byte.backslash :: Byte.letterU :: digits).drop 2 = digits := rfl
      rw [hdrop]
      cases hunit : Record.Quoted.codeUnit digits with
      | code value =>
          rw [Record.Quoted.lowHalf_of_code hunit]
          rfl
      | short missing =>
          rw [Record.Quoted.lowHalf_of_short hunit]
          rfl
      | malformed =>
          rw [Record.Quoted.lowHalf_of_malformed hunit]
          rfl
    · have hprefix : ¬ [b, u].isPrefixOf [Byte.backslash, Byte.letterU] = true := by
        simpa [List.isPrefixOf] using hescape
      rw [Record.Quoted.lowHalf, if_neg hescape]
      exact if_neg hprefix

/-- The code point of a surrogate pair, in words of 32 bits. -/
def combine (high low : Nat) : Checked Nat := do
  let high ← shift (← difference high 0xD800) 10
  let low ← difference low 0xDC00
  sum (← sum 0x10000 high) low

theorem combine_eq {high low : Nat} (hhigh : isHighSurrogate high) (hlow : isLowSurrogate low) :
    combine high low = .ok (Record.Quoted.combine high low) ∧
      Record.Quoted.combine high low < 0x110000 := by
  simp only [isHighSurrogate, isLowSurrogate, Bool.and_eq_true, decide_eq_true_eq] at hhigh hlow
  have hten : (high - 0xD800) <<< 10 = (high - 0xD800) * 0x400 := by
    simp only [Nat.shiftLeft_eq, Nat.reducePow]
  have hbound : Record.Quoted.combine high low < 0x110000 := by
    unfold Record.Quoted.combine
    omega
  have hword : (high - 0xD800) <<< 10 < Decimal.unsignedBound := by
    simp only [hten, Decimal.unsignedBound]
    omega
  have hsum : 0x10000 + (high - 0xD800) * 0x400 < Decimal.unsignedBound := by
    simp only [Decimal.unsignedBound]
    omega
  refine ⟨?_, hbound⟩
  rw [combine, difference_of_le hhigh.1, ok_bind, shift_of_lt (by decide) hword, ok_bind,
    difference_of_le hlow.1, ok_bind, hten, sum_of_lt hsum, ok_bind]
  have hlast : Record.Quoted.combine high low < Decimal.unsignedBound := by
    simp only [Decimal.unsignedBound]
    omega
  exact sum_of_lt hlast

/-- The bytes of a code point. The longest layout is asserted to have room for it. -/
def encode (code : Nat) : Checked Bytes := do
  if 0x10000 ≤ code then require .assertion (code < 0x200000)
  return Utf8.encode code

theorem encode_eq {code : Nat} (h : code < 0x200000) : encode code = .ok (Utf8.encode code) := by
  unfold encode
  split
  · rw [require_of h]
    rfl
  · rfl

/-! ### Lexemes -/

/-- An escape of a code unit, from its backslash at `p` on. -/
def unicodeLexeme (combineSurrogates : Bool) (input : Bytes) (p : Nat) : Checked Lexeme := do
  match ← codeUnit input (p + 2) with
  | .malformed => return .malformed
  | .short missing => return .cut missing
  | .code value =>
    if combineSurrogates && isHighSurrogate value then
      match ← lowHalf input (p + 6) with
      | .code low => return .piece (← encode (← combine value low)) 12
      | .short missing => return .cut missing
      | .missing => return .piece (← encode value) 6
    else return .piece (← encode value) 6

theorem unicodeLexeme_eq (cs : Bool) (input : Bytes) (p : Nat) :
    unicodeLexeme cs input p = .ok (Record.Quoted.unicodeLexeme cs (input.drop (p + 2))) := by
  have hnext : (input.drop (p + 2)).drop 4 = input.drop (p + 6) := List.drop_drop ..
  rw [unicodeLexeme, codeUnit_eq, ok_bind, Record.Quoted.unicodeLexeme, hnext]
  cases hunit : Record.Quoted.codeUnit (input.drop (p + 2)) with
  | malformed => rfl
  | short missing => rfl
  | code value =>
      have hvalue := lt_of_codeUnit hunit
      have halone : encode value = .ok (Utf8.encode value) :=
        encode_eq (Nat.lt_trans hvalue (by decide))
      dsimp only
      split
      next hhigh =>
        rw [lowHalf_eq, ok_bind]
        cases hlow : Record.Quoted.lowHalf (input.drop (p + 6)) with
        | code low =>
            obtain ⟨_, _, _, hsurrogate⟩ := Record.escape_of_lowHalf hlow
            obtain ⟨hcode, hbound⟩ := combine_eq (Bool.and_eq_true_iff.1 hhigh).2 hsurrogate
            dsimp only
            rw [hcode, ok_bind, encode_eq (Nat.lt_trans hbound (by decide))]
            rfl
        | short missing => rfl
        | missing =>
            dsimp only
            rw [halone]
            rfl
      · rw [halone]
        rfl

/-- What stands at a position of a body. A byte that may be escaped is an index into a table. -/
def lexeme (combineSurrogates : Bool) (input : Bytes) (p : Nat) : Checked Lexeme := do
  if p < input.length then
    let rest ← sliceFrom input p
    let left ← difference input.length p
    let run := (rest.findIdx? fun b => !isPlain b).getD left
    if 0 < run then return .piece (← slice input p (p + run)) run
    else
      let b ← byte input p
      if b = Byte.quote then return .close
      else
        match input[p + 1]? with
        | none => return .cut 1
        | some escaped =>
          if escaped = Byte.letterU then unicodeLexeme combineSurrogates input p
          else
            entry 256 escaped.toNat
            return .piece [unescape escaped] 2
  else return .cut 1

theorem run_eq (input : Bytes) (p : Nat) :
    ((input.drop p).findIdx? fun b => !isPlain b).getD (input.length - p) =
      ((input.drop p).takeWhile isPlain).length := by
  rw [← List.length_drop, ← List.findIdx_eq_getD_findIdx?, List.takeWhile_eq_take_findIdx_not,
    List.length_take_of_le List.findIdx_le_length]

section Lexeme

variable (cs : Bool) {b : UInt8} (hbyte : input[p]? = some b)
include hbyte

theorem lexeme_of_plain (hb : isPlain b) :
    lexeme cs input p = .ok (Record.Quoted.lexeme cs (input.drop p)) := by
  have hp : p < input.length := (List.getElem?_eq_some_iff.1 hbyte).1
  have hrest : input.drop p = b :: input.drop (p + 1) := Cursor.rest_within_of_getElem? hbyte
  obtain ⟨run, hrun⟩ : ∃ run, (input.drop p).takeWhile isPlain = run := ⟨_, rfl⟩
  have hprefix : run <+: input.drop p := hrun ▸ List.takeWhile_prefix _
  have hlength := hprefix.length_le
  rw [List.length_drop] at hlength
  have hpos : 0 < run.length := by
    rw [← hrun, hrest, List.takeWhile_cons_of_pos hb]
    exact Nat.succ_pos _
  obtain ⟨hquote, hback⟩ := Bool.and_eq_true_iff.1 hb
  rw [lexeme, if_pos hp, sliceFrom_of_le (Nat.le_of_lt hp), ok_bind,
    difference_of_le (Nat.le_of_lt hp), ok_bind, run_eq, hrun, if_pos hpos,
    slice_of_le (Nat.le_add_right _ _) (by omega), ok_bind, Nat.add_sub_cancel_left,
    ← List.prefix_iff_eq_take.1 hprefix, ← hrun, hrest, Record.Quoted.lexeme,
    if_neg (bne_iff_ne.1 hquote), if_neg (bne_iff_ne.1 hback)]
  rfl

/-- Where no run begins stands a quote or an escape. -/
theorem lexeme_of_not_plain (hb : ¬ isPlain b = true) :
    lexeme cs input p = .ok (Record.Quoted.lexeme cs (input.drop p)) := by
  have hp : p < input.length := (List.getElem?_eq_some_iff.1 hbyte).1
  have hrest : input.drop p = b :: input.drop (p + 1) := Cursor.rest_within_of_getElem? hbyte
  have hzero : ¬ 0 < ((input.drop p).takeWhile isPlain).length := by
    rw [hrest, List.takeWhile_cons_of_neg hb]
    exact Nat.lt_irrefl 0
  rw [lexeme, if_pos hp, sliceFrom_of_le (Nat.le_of_lt hp), ok_bind,
    difference_of_le (Nat.le_of_lt hp), ok_bind, run_eq, if_neg hzero, byte_of_getElem? hbyte, ok_bind,
    hrest, Record.Quoted.lexeme]
  by_cases hquote : b = Byte.quote
  · rw [if_pos hquote, if_pos hquote]
    rfl
  have hback : b = Byte.backslash := by
    simpa [isPlain, hquote] using hb
  rw [if_neg hquote, if_neg hquote, if_pos hback]
  cases hescaped : input[p + 1]? with
  | none =>
      rw [show input.drop (p + 1) = [] from Cursor.rest_within_of_none hescaped]
      rfl
  | some escaped =>
      rw [show input.drop (p + 1) = _ from Cursor.rest_within_of_getElem? hescaped,
        Record.Quoted.escapeLexeme]
      dsimp only
      split
      · exact unicodeLexeme_eq cs input p
      · rw [entry_of_lt escaped.toNat_lt]
        rfl

end Lexeme

theorem lexeme_eq (cs : Bool) (input : Bytes) (p : Nat) :
    lexeme cs input p = .ok (Record.Quoted.lexeme cs (input.drop p)) := by
  cases hbyte : input[p]? with
  | none =>
      have hp := List.getElem?_eq_none_iff.1 hbyte
      rw [lexeme, if_neg (Nat.not_lt.2 hp), List.drop_eq_nil_iff.2 hp]
      rfl
  | some b =>
      by_cases hb : isPlain b = true
      · exact lexeme_of_plain cs hbyte hb
      · exact lexeme_of_not_plain cs hbyte hb

/-! ### Bodies -/

theorem lexeme_width {cs : Bool} {text : Bytes} {width : Nat}
    (h : lexeme cs input p = .ok (.piece text width)) : 0 < width ∧ p < input.length := by
  rw [lexeme_eq, Except.ok.injEq] at h
  obtain ⟨hwidth, hlength⟩ := Record.Quoted.lexeme_width h
  rw [List.length_drop] at hlength
  exact ⟨hwidth, Nat.lt_of_sub_pos hlength⟩

/-- The loop over a body that is written from `start` on, and the arena as the loop leaves it. -/
def body (combineSurrogates : Bool) (input : Bytes) (start : Nat) (arena : Arena) (p : Nat) :
    Checked (Found Span × Arena) :=
  match h : lexeme combineSurrogates input p with
  | .error trap => .error trap
  | .ok .close => do return (.ok (← finish arena start, p + 1), arena)
  | .ok (.piece text width) =>
    have := lexeme_width h
    match extend arena text with
    | .error trap => .error trap
    | .ok (.error overflow) => .ok (.error (.fault (.capacityExceeded overflow)), arena)
    | .ok (.ok written) => body combineSurrogates input start written (p + width)
  | .ok (.cut missing) => .ok (.error (.incomplete missing), arena)
  | .ok .malformed => .ok (.error (.fault (.invalidUnicodeEscape p)), arena)
termination_by input.length - p

/-- Decodes the body at `p` to the end of `arena`, which is taken back if that fails. -/
def quoted (combineSurrogates : Bool) (input : Bytes) (arena : Arena) (p : Nat) :
    Checked (Found Span × Arena) := do
  match ← body combineSurrogates input arena.cursor arena p with
  | (.ok read, written) => return (.ok read, written)
  | (.error why, written) => return (.error why, written.truncate arena.cursor)

/-- The answer for a body, after its pieces were written from `start` on. -/
def concluded (start : Nat) (written : Except Overflow Arena) (ending : Record.Quoted.Ending) :
    Found Span :=
  match written, ending with
  | .error overflow, _ => .error (.fault (.capacityExceeded overflow))
  | .ok written, .closed after => .ok (written.finish start, after.pos)
  | .ok _, .cut missing => .error (.incomplete missing)
  | .ok _, .malformed offset => .error (.fault (.invalidUnicodeEscape offset))

theorem lexeme_within {cs : Bool} {found : Lexeme} (h : lexeme cs input p = .ok found) :
    Record.Quoted.lexeme cs (Cursor.within input p).rest = found :=
  Except.ok.inj ((lexeme_eq cs input p).symm.trans h)

/-- The loop writes the pieces up to the first that does not fit. -/
theorem body_spec (cs : Bool) (input : Bytes) {start : Nat} {arena : Arena} (p : Nat)
    (hfits : arena.Fits) (hstart : start ≤ arena.cursor) :
    let read := Record.Quoted.read cs (.within input p)
    ∃ left, arena.Extends left ∧
      body cs input start arena p =
        .ok (concluded start (arena.extendAll read.pieces) read.ending, left) ∧
      ∀ written, arena.extendAll read.pieces = .ok written → left = written := by
  -- Where the loop stops without a write, nothing is left to be written.
  have stops {arena left : Arena} (h : arena.extendAll [] = .ok left) : arena = left :=
    Except.ok.inj h
  fun_induction body cs input start arena p with
  | case1 arena p trap h => cases h.symm.trans (lexeme_eq cs input p)
  | case2 arena p h =>
      rw [Record.Quoted.read_eq, lexeme_within h, finish_eq hstart]
      exact ⟨arena, .refl arena, rfl, fun _ => stops⟩
  | case3 arena p text width h _ trap hextend =>
      rw [extend_eq hfits] at hextend
      cases hextend
  | case4 arena p text width h _ overflow hextend =>
      rw [extend_eq hfits, Except.ok.injEq] at hextend
      rw [Record.Quoted.read_eq, lexeme_within h]
      dsimp only
      rw [Arena.extendAll_cons, hextend]
      exact ⟨arena, .refl arena, rfl, fun written hwritten => by cases hwritten⟩
  | case5 arena p text width h _ written hextend ih =>
      rw [extend_eq hfits, Except.ok.injEq] at hextend
      have hext := Arena.extends_extend hextend
      obtain ⟨left, hleft, hcode, hwritten⟩ :=
        ih (hfits.extend hextend) (Nat.le_trans hstart hext.cursor_le)
      rw [Record.Quoted.read_eq, lexeme_within h]
      dsimp only
      rw [Arena.extendAll_cons, hextend, Cursor.advance_within]
      exact ⟨left, hext.trans hleft, hcode, hwritten⟩
  | case6 arena p missing h | case7 arena p h =>
      rw [Record.Quoted.read_eq, lexeme_within h]
      exact ⟨arena, .refl arena, rfl, fun _ => stops⟩

/-- What a call on quoted text leaves: its answer by position, and the arena, which is what it was if
the text was not decoded. -/
def settled (arena : Arena) (r : Except Record.Stop (Span × Arena × Cursor)) : Found Span × Arena :=
  match r with
  | .error why => (.error why, arena)
  | .ok (span, written, after) => (.ok (span, after.pos), written)

theorem quoted_eq (cs : Bool) (input : Bytes) {arena : Arena} (hfits : arena.Fits) (p : Nat) :
    quoted cs input arena p =
      .ok (settled arena (Record.Quoted.decode cs arena (.within input p))) := by
  obtain ⟨left, hleft, hcode, hwritten⟩ := body_spec cs input p hfits (Nat.le_refl _)
  have hback := hleft.truncate
  rw [quoted, hcode, ok_bind]
  unfold Record.Quoted.decode
  dsimp only
  cases hext : arena.extendAll (Record.Quoted.read cs (.within input p)).pieces with
  | error overflow =>
      dsimp only [concluded]
      rw [hback]
      rfl
  | ok written =>
      rw [← hwritten written hext]
      cases (Record.Quoted.read cs (.within input p)).ending with
      | closed after => rfl
      | cut missing =>
          dsimp only [concluded]
          rw [hback]
          rfl
      | malformed offset =>
          dsimp only [concluded]
          rw [hback]
          rfl

end Checked

end Intake
