import Intake.Proofs.Checked.Quoted
import Intake.Proofs.Record.Meaning
import Intake.Proofs.Text.Utf8.PrefixCode

/-!
# What escapes stand for

The meaning of a row of units once more, without a word of the decoder: a table of letters, the code point
of a pair, and the bits that a code point puts into its bytes. On every body the two come to the same
bytes, and a body spells just what its units stand for.
-/

namespace Intake.Record

open Quoted (isHighSurrogate isLowSurrogate combine unescape)

/-! ### Letters, pairs and bits -/

/-- The letters that stand for a control character: backspace, form feed, line feed, carriage return and
tab. -/
def controlLetters : List (UInt8 × UInt8) :=
  [(0x62, 0x08), (0x66, 0x0C), (0x6E, 0x0A), (0x72, 0x0D), (0x74, 0x09)]

/-- The two halves of one code point. -/
def IsPair (high low : Nat) : Prop :=
  (0xD800 ≤ high ∧ high ≤ 0xDBFF) ∧ 0xDC00 ≤ low ∧ low ≤ 0xDFFF

/-- The bytes that a row of units stands for. -/
inductive Denotes (combineSurrogates : Bool) : List Symbol → Bytes → Prop
  | nil : Denotes combineSurrogates [] []
  | plain {b : UInt8} {symbols : List Symbol} {text : Bytes}
      (h : Denotes combineSurrogates symbols text) :
      Denotes combineSurrogates (.plain b :: symbols) (b :: text)
  | letter {b control : UInt8} {symbols : List Symbol} {text : Bytes}
      (hletter : (b, control) ∈ controlLetters) (h : Denotes combineSurrogates symbols text) :
      Denotes combineSurrogates (.escape b :: symbols) (control :: text)
  | other {b : UInt8} {symbols : List Symbol} {text : Bytes}
      (hother : ∀ control, (b, control) ∉ controlLetters) (h : Denotes combineSurrogates symbols text) :
      Denotes combineSurrogates (.escape b :: symbols) (b :: text)
  | pair {high low : Nat} {symbols : List Symbol} {text : Bytes} (hcombine : combineSurrogates)
      (hpair : IsPair high low) (h : Denotes combineSurrogates symbols text) :
      Denotes combineSurrogates (.code high :: .code low :: symbols)
        (Utf8.encodeWord (.ofNat (0x10000 + (high - 0xD800) * 0x400 + (low - 0xDC00))) ++ text)
  | lone {code : Nat} {symbols : List Symbol} {text : Bytes}
      (hlone : combineSurrogates → ∀ low later, symbols = .code low :: later → ¬ IsPair code low)
      (h : Denotes combineSurrogates symbols text) :
      Denotes combineSurrogates (.code code :: symbols) (Utf8.encodeWord (.ofNat code) ++ text)

variable {cs : Bool} {symbols : List Symbol} {body : Bytes}

/-! ### The decoder's functions -/

theorem unescape_of_controlLetter {b control : UInt8} (h : (b, control) ∈ controlLetters) :
    unescape b = control := by
  simp only [controlLetters, List.mem_cons, Prod.mk.injEq, List.not_mem_nil, or_false] at h
  rcases h with ⟨rfl, rfl⟩ | ⟨rfl, rfl⟩ | ⟨rfl, rfl⟩ | ⟨rfl, rfl⟩ | ⟨rfl, rfl⟩ <;> rfl

theorem unescape_of_other {b : UInt8} (h : ∀ control, (b, control) ∉ controlLetters) : unescape b = b := by
  rw [← not_exists] at h
  simp only [controlLetters, List.mem_cons, Prod.mk.injEq, List.not_mem_nil, or_false, exists_or,
    exists_eq_right, not_or] at h
  simp [unescape, h]

theorem isPair_iff {high low : Nat} : IsPair high low ↔ isHighSurrogate high ∧ isLowSurrogate low := by
  simp only [IsPair, isHighSurrogate, isLowSurrogate, Bool.and_eq_true, decide_eq_true_eq]
  omega

theorem encodeWord_ofNat {code : Nat} (h : code < 0x110000) :
    Utf8.encodeWord (.ofNat code) = Utf8.encode code := by
  rw [Utf8.encodeWord_eq, UInt32.toNat_ofNat_of_lt' (Nat.lt_trans h (by decide))]

theorem encodeWord_unit {value : Nat} {digits : Bytes} (h : HexUnit value digits) :
    Utf8.encodeWord (.ofNat value) = Utf8.encode value :=
  encodeWord_ofNat (Nat.lt_trans (Checked.lt_of_codeUnit (h.codeUnit [])) (by decide))

theorem encodeWord_pair {high low : Nat} (h : IsPair high low) :
    Utf8.encodeWord (.ofNat (0x10000 + (high - 0xD800) * 0x400 + (low - 0xDC00))) =
      Utf8.encode (combine high low) := by
  refine encodeWord_ofNat ?_
  unfold IsPair at h
  omega

/-! ### The same meaning -/

theorem denotes_meaning (h : Written symbols body) : Denotes cs symbols (meaning cs symbols) := by
  fun_induction meaning cs symbols generalizing body with
  | case1 => exact .nil
  | case2 b symbols ih =>
      cases h with
      | plain hq hb h => exact .plain (ih h)
  | case3 b symbols ih =>
      cases h with
      | escape hu h =>
          by_cases hletter : ∃ control, (b, control) ∈ controlLetters
          · obtain ⟨control, hletter⟩ := hletter
            rw [unescape_of_controlLetter hletter]
            exact .letter hletter (ih h)
          · rw [not_exists] at hletter
            rw [unescape_of_other hletter]
            exact .other hletter (ih h)
  | case4 high low symbols hpair ih =>
      simp only [Bool.and_eq_true] at hpair
      have hhalves : IsPair high low := isPair_iff.2 ⟨hpair.1.2, hpair.2⟩
      cases h with
      | code hhigh h =>
          cases h with
          | code hlow h =>
              rw [← encodeWord_pair hhalves]
              exact .pair hpair.1.1 hhalves (ih h)
  | case5 high low symbols hpair ih =>
      cases h with
      | code hhigh h =>
          rw [← encodeWord_unit hhigh]
          refine .lone (fun hcs _ _ hsymbols hhalves => hpair ?_) (ih h)
          cases hsymbols
          rw [isPair_iff] at hhalves
          simp only [hcs, hhalves.1, hhalves.2, Bool.and_self]
  | case6 value symbols hnot ih =>
      cases h with
      | code hvalue h =>
          rw [← encodeWord_unit hvalue]
          exact .lone (fun _ low later hsymbols _ => hnot low later hsymbols) (ih h)

/-- A row of units stands for its meaning and nothing else. -/
theorem denotes_iff (h : Written symbols body) {text : Bytes} :
    Denotes cs symbols text ↔ text = meaning cs symbols := by
  refine ⟨fun hdenotes => ?_, fun htext => htext ▸ denotes_meaning h⟩
  induction hdenotes generalizing body with
  | nil => rfl
  | plain _ ih =>
      cases h with
      | plain hq hb h => rw [meaning, ih h]
  | letter hletter _ ih =>
      cases h with
      | escape hu h => rw [meaning, ih h, unescape_of_controlLetter hletter]
  | other hother _ ih =>
      cases h with
      | escape hu h => rw [meaning, ih h, unescape_of_other hother]
  | pair hcombine hpair _ ih =>
      obtain ⟨hhigh, hlow⟩ := isPair_iff.1 hpair
      cases h with
      | code _ h =>
          cases h with
          | code _ h => rw [meaning_pair hcombine hhigh hlow, ih h, encodeWord_pair hpair]
  | lone hlone _ ih =>
      cases h with
      | code hvalue h =>
          rw [meaning_lone, ih h, encodeWord_unit hvalue]
          rintro hcs hhigh ⟨low, later, hsymbols, hlow⟩
          exact hlone hcs low later hsymbols (isPair_iff.2 ⟨hhigh, hlow⟩)

/-- So a body spells just what its units stand for. -/
theorem spells_iff {text : Bytes} :
    Spells cs text body ↔ ∃ symbols, Written symbols body ∧ Denotes cs symbols text := by
  constructor
  · intro h
    obtain ⟨symbols, hwritten, rfl⟩ := exists_symbols h
    exact ⟨symbols, hwritten, denotes_meaning hwritten⟩
  · rintro ⟨symbols, hwritten, hdenotes⟩
    rw [(denotes_iff hwritten).1 hdenotes]
    exact spells_meaning hwritten

end Intake.Record
