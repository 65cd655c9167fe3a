import Intake.Cursor
import Intake.Text.Utf8
import Intake.Record.Fault

/-!
# Quoted text

The body of a quoted string, from just past its opening quote. A body is a row of lexemes: runs of
plain bytes, and escapes. `read` takes them apart without looking at the arena, `decode` then
writes what they stand for, so a body that is cut short or broken leaves nothing behind.

An escape of a byte that has no meaning of its own stands for that byte. An escaped high surrogate
that an escaped low one follows stands for one code point, if the reader is asked to combine them;
any other surrogate is encoded alone.
-/

namespace Intake.Record.Quoted

/-- The byte that a backslash and `b` stand for. -/
def unescape (b : UInt8) : UInt8 :=
  if b = 0x62 then 0x08
  else if b = 0x66 then Byte.formFeed
  else if b = 0x6E then Byte.lineFeed
  else if b = 0x72 then Byte.carriageReturn
  else if b = 0x74 then Byte.tab
  else b

/-- A byte that stands for itself. -/
def isPlain (b : UInt8) : Bool :=
  b != Byte.quote && b != Byte.backslash

/-- Four hex digits at the front of some bytes. -/
inductive CodeUnit where
  | code (value : Nat)
  | short (missing : Nat)
  | malformed

/-- A byte that is no digit is noticed even where the input ends after it. -/
def codeUnit (bs : Bytes) : CodeUnit :=
  match (bs.take 4).mapM Byte.hexDigit? with
  | none => .malformed
  | some digits =>
    if digits.length < 4 then .short (4 - digits.length)
    else .code (digits.foldl (fun value digit => value * 16 + digit) 0)

def isHighSurrogate (code : Nat) : Bool :=
  0xD800 ≤ code && code < 0xDC00

def isLowSurrogate (code : Nat) : Bool :=
  0xDC00 ≤ code && code < 0xE000

/-- The code point of a surrogate pair. -/
def combine (high low : Nat) : Nat :=
  0x10000 + (high - 0xD800) * 0x400 + (low - 0xDC00)

/-- The low half of a surrogate pair at the front of some bytes. -/
inductive LowHalf where
  | code (value : Nat)
  | short (missing : Nat)
  | missing

def lowHalf : Bytes → LowHalf
  | [] => .short 6
  | [b] => if b = Byte.backslash then .short 5 else .missing
  | b :: u :: digits =>
    if b = Byte.backslash ∧ u = Byte.letterU then
      match codeUnit digits with
      | .code value => if isLowSurrogate value then .code value else .missing
      | .short missing => .short missing
      | .malformed => .missing
    else .missing

section LowHalf

variable {digits : Bytes}

theorem lowHalf_of_ne {b : UInt8} (hb : b ≠ Byte.backslash) (bs : Bytes) :
    lowHalf (b :: bs) = .missing := by
  cases bs with
  | nil => exact if_neg hb
  | cons u digits => exact if_neg fun h => hb h.1

theorem lowHalf_of_escape {u : UInt8} (hu : u ≠ Byte.letterU) (digits : Bytes) :
    lowHalf (Byte.backslash :: u :: digits) = .missing :=
  if_neg fun h => hu h.2

theorem lowHalf_of_code {value : Nat} (h : codeUnit digits = .code value) :
    lowHalf (Byte.backslash :: Byte.letterU :: digits) =
      if isLowSurrogate value then .code value else .missing := by
  simp only [lowHalf, and_self, if_true, h]

theorem lowHalf_of_short {missing : Nat} (h : codeUnit digits = .short missing) :
    lowHalf (Byte.backslash :: Byte.letterU :: digits) = .short missing := by
  simp only [lowHalf, and_self, if_true, h]

theorem lowHalf_of_malformed (h : codeUnit digits = .malformed) :
    lowHalf (Byte.backslash :: Byte.letterU :: digits) = .missing := by
  simp only [lowHalf, and_self, if_true, h]

end LowHalf

/-- What a string body begins with. -/
inductive Lexeme where
  | close
  /-- Some `width` bytes that stand for `text`. -/
  | piece (text : Bytes) (width : Nat)
  /-- The input ends within a lexeme, at least `missing` bytes too early. -/
  | cut (missing : Nat)
  | malformed

/-- An escape of a code unit, from its digits on. -/
def unicodeLexeme (combineSurrogates : Bool) (digits : Bytes) : Lexeme :=
  match codeUnit digits with
  | .malformed => .malformed
  | .short missing => .cut missing
  | .code value =>
    if combineSurrogates && isHighSurrogate value then
      match lowHalf (digits.drop 4) with
      | .code low => .piece (Utf8.encode (combine value low)) 12
      | .short missing => .cut missing
      | .missing => .piece (Utf8.encode value) 6
    else .piece (Utf8.encode value) 6

/-- An escape, from just past its backslash. -/
def escapeLexeme (combineSurrogates : Bool) : Bytes → Lexeme
  | [] => .cut 1
  | b :: rest =>
    if b = Byte.letterU then unicodeLexeme combineSurrogates rest else .piece [unescape b] 2

def lexeme (combineSurrogates : Bool) : Bytes → Lexeme
  | [] => .cut 1
  | b :: rest =>
    if b = Byte.quote then .close
    else if b = Byte.backslash then escapeLexeme combineSurrogates rest
    else
      let run := (b :: rest).takeWhile isPlain
      .piece run run.length

section UnicodeLexeme

variable {cs : Bool} {digits : Bytes} {value low missing : Nat}

theorem unicodeLexeme_of_lone (h : codeUnit digits = .code value)
    (hlone : cs → isHighSurrogate value → lowHalf (digits.drop 4) = .missing) :
    unicodeLexeme cs digits = .piece (Utf8.encode value) 6 := by
  by_cases hhigh : (cs && isHighSurrogate value) = true
  · obtain ⟨hcs, hvalue⟩ := Bool.and_eq_true_iff.1 hhigh
    simp only [unicodeLexeme, h, if_pos hhigh, hlone hcs hvalue]
  · simp only [unicodeLexeme, h, if_neg hhigh]

theorem unicodeLexeme_of_pair (h : codeUnit digits = .code value) (hcs : cs)
    (hhigh : isHighSurrogate value) (hlow : lowHalf (digits.drop 4) = .code low) :
    unicodeLexeme cs digits = .piece (Utf8.encode (combine value low)) 12 := by
  simp only [unicodeLexeme, h, hcs, hhigh, Bool.and_self, if_true, hlow]

theorem unicodeLexeme_of_short (h : codeUnit digits = .code value) (hcs : cs)
    (hhigh : isHighSurrogate value) (hlow : lowHalf (digits.drop 4) = .short missing) :
    unicodeLexeme cs digits = .cut missing := by
  simp only [unicodeLexeme, h, hcs, hhigh, Bool.and_self, if_true, hlow]

end UnicodeLexeme

theorem unicodeLexeme_width {cs : Bool} {digits text : Bytes} {width : Nat}
    (h : unicodeLexeme cs digits = .piece text width) : 0 < width := by
  unfold unicodeLexeme at h
  repeat' split at h
  all_goals simp only [reduceCtorEq, Lexeme.piece.injEq] at h
  all_goals omega

theorem escapeLexeme_width {cs : Bool} {bs text : Bytes} {width : Nat}
    (h : escapeLexeme cs bs = .piece text width) : 0 < width := by
  cases bs with
  | nil => cases h
  | cons b rest =>
    by_cases hb : b = Byte.letterU
    · rw [escapeLexeme, if_pos hb] at h
      exact unicodeLexeme_width h
    · rw [escapeLexeme, if_neg hb, Lexeme.piece.injEq] at h
      omega

theorem lexeme_width {cs : Bool} {bs text : Bytes} {width : Nat}
    (h : lexeme cs bs = .piece text width) : 0 < width ∧ 0 < bs.length := by
  cases bs with
  | nil => cases h
  | cons b rest =>
    refine ⟨?_, by simp⟩
    by_cases hq : b = Byte.quote
    · simp [lexeme, hq] at h
    by_cases hb : b = Byte.backslash
    · rw [lexeme, if_neg hq, if_pos hb] at h
      exact escapeLexeme_width h
    · rw [lexeme, if_neg hq, if_neg hb, Lexeme.piece.injEq] at h
      simp [← h.2, List.takeWhile_cons, isPlain, hq, hb]

/-- Where a body ends. -/
inductive Ending where
  /-- At its closing quote, which `after` lies past. -/
  | closed (after : Cursor)
  /-- At the end of the input, at least `missing` bytes too early. -/
  | cut (missing : Nat)
  | malformed (offset : Nat)

/-- What the lexemes of a body stand for, up to where it ends. -/
structure Body where
  pieces : List Bytes
  ending : Ending

def read (combineSurrogates : Bool) (c : Cursor) : Body :=
  match h : lexeme combineSurrogates c.rest with
  | .close => ⟨[], .closed (c.advance 1)⟩
  | .piece text width =>
    have := lexeme_width h
    let body := read combineSurrogates (c.advance width)
    ⟨text :: body.pieces, body.ending⟩
  | .cut missing => ⟨[], .cut missing⟩
  | .malformed => ⟨[], .malformed c.pos⟩
termination_by c.rest.length
decreasing_by
  simp only [Cursor.advance, List.length_drop]
  omega

theorem read_eq (cs : Bool) (c : Cursor) :
    read cs c =
      match lexeme cs c.rest with
      | .close => ⟨[], .closed (c.advance 1)⟩
      | .piece text width =>
        ⟨text :: (read cs (c.advance width)).pieces, (read cs (c.advance width)).ending⟩
      | .cut missing => ⟨[], .cut missing⟩
      | .malformed => ⟨[], .malformed c.pos⟩ := by
  rw [read]
  split <;> simp only [*]

theorem read_of_rest_eq_nil {cs : Bool} {c : Cursor} (h : c.rest = []) :
    read cs c = ⟨[], .cut 1⟩ := by
  rw [read_eq, h, lexeme]

theorem reaches_of_read {cs : Bool} {c after : Cursor} (h : (read cs c).ending = .closed after) :
    c.Reaches after := by
  fun_induction read cs c with
  | case1 c hc =>
    have hlen : 1 ≤ c.rest.length := by
      cases hr : c.rest <;> simp_all [lexeme]
    cases h
    exact c.reaches_advance hlen
  | case2 c text width hc _ body ih =>
    by_cases hw : width ≤ c.rest.length
    · exact (c.reaches_advance hw).trans (ih h)
    · have hnil : (c.advance width).rest = [] := by
        simp only [Cursor.advance, List.drop_eq_nil_iff]
        omega
      simp [body, read_of_rest_eq_nil hnil] at h
  | case3 => cases h
  | case4 => cases h

/-- Decodes the body at `c` to the end of `arena`. Nothing is written unless the body is closed and
all of it fits. -/
def decode (combineSurrogates : Bool) (arena : Arena) (c : Cursor) :
    Except Stop (Span × Arena × Cursor) :=
  let body := read combineSurrogates c
  match arena.extendAll body.pieces with
  | .error overflow => .error (.fault (.capacityExceeded overflow))
  | .ok written =>
    match body.ending with
    | .closed after => .ok (written.finish arena.cursor, written, after)
    | .cut missing => .error (.incomplete missing)
    | .malformed offset => .error (.fault (.invalidUnicodeEscape offset))

theorem reaches_of_decode {cs : Bool} {arena written : Arena} {c after : Cursor} {span : Span}
    (h : decode cs arena c = .ok (span, written, after)) : c.Reaches after := by
  simp only [decode] at h
  split at h
  · cases h
  split at h
  next hend =>
    cases h
    exact reaches_of_read hend
  · cases h
  · cases h

end Intake.Record.Quoted
