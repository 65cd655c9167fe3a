import Intake.Proofs.Record.Steady.Token
import Intake.Record.Quoted

/-!
# JSON text

The texts that every reader of brackets agrees on. Objects and arrays are built from strings and bare
words, with whitespace around each item. Nothing is asked of a word but that no bracket, quote or
separator is in it, and nothing of a string but that a quote in it is escaped, so the numbers,
literals and strings of JSON are among them and are not told apart.

`Scans` follows such a text byte by byte and counts the open brackets. It is a fence: a reader that has
entered the text cannot run past the end of it, whatever follows there.
-/

namespace Intake.Record

open Intake.Stream (opens closes balancedEnd? balancedEnd?_cons)

namespace Bracket

def opening : Bracket → UInt8
  | brace => Byte.openBrace
  | square => Byte.openSquare

def closing : Bracket → UInt8
  | brace => Byte.closeBrace
  | square => Byte.closeSquare

theorem opens_opening (b : Bracket) : opens b.opening := by
  cases b <;> rfl

theorem closes_closing (b : Bracket) : closes b.closing := by
  cases b <;> rfl

end Bracket

/-! ### The grammar -/

/-- Whitespace, or nothing. -/
def Gap (bs : Bytes) : Prop := ∀ b ∈ bs, Byte.isSpace b

theorem Gap.nil : Gap [] := fun _ hb => nomatch hb

theorem Gap.append {gap more : Bytes} (h : Gap gap) (hmore : Gap more) : Gap (gap ++ more) := fun b hb =>
  (List.mem_append.1 hb).elim (h b) (hmore b)

/-- The body of a string: no quote is bare, and a backslash is followed by the byte it protects. -/
inductive Sealed : Bytes → Prop
  | nil : Sealed []
  | plain {b : UInt8} {rest : Bytes} (hq : b ≠ Byte.quote) (hb : b ≠ Byte.backslash)
      (h : Sealed rest) : Sealed (b :: rest)
  | escape (b : UInt8) {rest : Bytes} (h : Sealed rest) : Sealed (Byte.backslash :: b :: rest)

/-- A number, a literal or anything else that is not interrupted. -/
def Word (bs : Bytes) : Prop := bs ≠ [] ∧ ∀ b ∈ bs, endsWord b = false ∧ opens b = false

instance (bs : Bytes) : Decidable (Word bs) :=
  decidable_of_iff (!bs.isEmpty && bs.all fun b => !endsWord b && !opens b) (by simp [Word])

/-- The parts of a text. The items of an object are its members, those of an array its elements. -/
inductive Shape where
  | value
  | list (bracket : Bracket)
  | items (bracket : Bracket)
  | item (bracket : Bracket)

/-- Text of a shape in which at most `n` brackets are open at once. -/
inductive Json : Shape → Nat → Bytes → Prop
  | word {n : Nat} {bs : Bytes} (h : Word bs) : Json .value n bs
  | string {n : Nat} {body : Bytes} (h : Sealed body) :
      Json .value n (Byte.quote :: (body ++ [Byte.quote]))
  | nested {n : Nat} {bracket : Bracket} {bs : Bytes} (h : Json (.list bracket) n bs) :
      Json .value n bs
  | empty {n : Nat} (bracket : Bracket) {gap : Bytes} (h : Gap gap) :
      Json (.list bracket) (n + 1) (bracket.opening :: (gap ++ [bracket.closing]))
  | full {n : Nat} {bracket : Bracket} {bs : Bytes} (h : Json (.items bracket) n bs) :
      Json (.list bracket) (n + 1) (bracket.opening :: (bs ++ [bracket.closing]))
  | last {n : Nat} {bracket : Bracket} {bs : Bytes} (h : Json (.item bracket) n bs) :
      Json (.items bracket) n bs
  | more {n : Nat} {bracket : Bracket} {first rest : Bytes} (h : Json (.item bracket) n first)
      (hrest : Json (.items bracket) n rest) : Json (.items bracket) n (first ++ Byte.comma :: rest)
  | element {n : Nat} {before value after : Bytes} (hbefore : Gap before) (h : Json .value n value)
      (hafter : Gap after) : Json (.item .square) n (before ++ (value ++ after))
  | member {n : Nat} {before key after value : Bytes} (hbefore : Gap before) (hkey : Sealed key)
      (hafter : Gap after) (h : Json (.item .square) n value) :
      Json (.item .brace) n
        (before ++ Byte.quote :: (key ++ Byte.quote :: (after ++ Byte.colon :: value)))

/-- An object, nested to any depth. -/
def IsObject (bs : Bytes) : Prop := ∃ n, Json (.list .brace) n bs

example : Word (Utf8.ofString "-1.5e+3") ∧ Word (Utf8.ofString "null") := by decide

theorem sealed_of_plain {bs : Bytes} (h : bs.all Quoted.isPlain) : Sealed bs := by
  induction bs with
  | nil => exact .nil
  | cons b bs ih =>
      rw [List.all_cons, Bool.and_eq_true] at h
      obtain ⟨hq, hb⟩ : b ≠ Byte.quote ∧ b ≠ Byte.backslash := by
        simpa [Quoted.isPlain] using h.1
      exact .plain hq hb (ih h.2)

theorem closingQuote?_of_sealed {body : Bytes} (h : Sealed body) (index : Nat) (rest : Bytes) :
    closingQuote? index (body ++ Byte.quote :: rest) = some (index + body.length) := by
  induction h generalizing index with
  | nil => exact closingQuote?_quote index rest
  | plain hq hb _ ih =>
      rw [List.cons_append, closingQuote?_plain hq hb, ih, List.length_cons, Nat.add_right_comm,
        Nat.add_assoc]
  | escape b _ ih =>
      rw [List.cons_append, List.cons_append, closingQuote?_escape, ih, List.length_cons,
        List.length_cons, Nat.add_assoc, Nat.add_comm 2]

/-! ### Kinds of bytes -/

section Kinds

variable {b : UInt8}

theorem not_opens_of_closes (h : closes b) : ¬ opens b := by
  simp only [closes, Bool.or_eq_true, beq_iff_eq] at h
  rcases h with rfl | rfl <;> decide

theorem not_opens_of_isInert (h : isInert b) : ¬ opens b := by
  obtain ⟨⟨hbrace, hsquare⟩, -⟩ := isInert_iff.1 h
  simp [opens, hbrace, hsquare]

theorem not_closes_of_isInert (h : isInert b) : ¬ closes b := by
  obtain ⟨-, ⟨hbrace, hsquare⟩, -⟩ := isInert_iff.1 h
  simp [closes, hbrace, hsquare]

theorem isInert_of_letter (hends : endsWord b = false) (hopen : ¬ opens b) : isInert b := by
  simp only [endsWord, Bool.or_eq_false_iff, beq_eq_false_iff_ne] at hends
  simp only [opens, Bool.or_eq_true, beq_iff_eq, not_or] at hopen
  obtain ⟨⟨⟨⟨⟨-, hbrace⟩, hsquare⟩, -⟩, hquote⟩, -⟩ := hends
  exact isInert_iff.2 ⟨hopen, ⟨hbrace, hsquare⟩, hquote⟩

end Kinds

/-! ### Counting brackets -/

section Balance

variable {c : Cursor} {b : UInt8} {rest : Bytes}

theorem balancedEnd?_inert (n : Nat) (hc : c.rest = b :: rest) (hb : isInert b) :
    balancedEnd? n c = balancedEnd? n (c.advance 1) := by
  rw [balancedEnd?_cons hc, if_neg (not_opens_of_isInert hb), if_neg (not_closes_of_isInert hb),
    if_neg (isInert_iff.1 hb).2.2]

theorem balancedEnd?_string {index : Nat} (n : Nat) (hc : c.rest = Byte.quote :: rest)
    (hq : closingQuote? 0 rest = some index) : balancedEnd? n c = balancedEnd? n (c.advance (index + 2)) := by
  have hopen : ¬ opens Byte.quote := by decide
  have hclose : ¬ closes Byte.quote := by decide
  rw [balancedEnd?_cons hc, if_neg hopen, if_neg hclose, if_pos rfl, Cursor.rest_advance_one hc, hq]
  simp only [Cursor.advance_advance, Nat.add_comm 1]

end Balance

/-! ### Scanning -/

/-- From here the bytes lead through `depth` closing brackets to `stop`. Within a word, no bracket
opens. -/
inductive Scans (stop : Cursor) : Bool → Nat → Cursor → Prop
  | done {inWord : Bool} : Scans stop inWord 0 stop
  | enter {n : Nat} {c : Cursor} {b : UInt8} {rest : Bytes} (hc : c.rest = b :: rest) (hb : opens b)
      (h : Scans stop false (n + 2) (c.advance 1)) : Scans stop false (n + 1) c
  | leave {inWord : Bool} {n : Nat} {c : Cursor} {b : UInt8} {rest : Bytes} (hc : c.rest = b :: rest)
      (hb : closes b) (h : Scans stop false n (c.advance 1)) : Scans stop inWord (n + 1) c
  | string {inWord : Bool} {n index : Nat} {c : Cursor} {rest : Bytes}
      (hc : c.rest = Byte.quote :: rest) (hq : closingQuote? 0 rest = some index)
      (h : Scans stop false (n + 1) (c.advance (index + 2))) : Scans stop inWord (n + 1) c
  | gap {inWord : Bool} {n : Nat} {c : Cursor} {b : UInt8} {rest : Bytes} (hc : c.rest = b :: rest)
      (hb : isInert b) (hends : endsWord b = true) (h : Scans stop false (n + 1) (c.advance 1)) :
      Scans stop inWord (n + 1) c
  | letter {inWord : Bool} {n : Nat} {c : Cursor} {b : UInt8} {rest : Bytes}
      (hc : c.rest = b :: rest) (hb : isInert b) (hends : endsWord b = false)
      (h : Scans stop true (n + 1) (c.advance 1)) : Scans stop inWord (n + 1) c

namespace Scans

variable {stop c : Cursor} {inWord : Bool} {n : Nat}

theorem relax (h : Scans stop inWord n c) : Scans stop false n c := by
  cases h with
  | done => exact .done
  | enter hc hb h => exact .enter hc hb h
  | leave hc hb h => exact .leave hc hb h
  | string hc hq h => exact .string hc hq h
  | gap hc hb hends h => exact .gap hc hb hends h
  | letter hc hb hends h => exact .letter hc hb hends h

theorem eq_stop (h : Scans stop inWord 0 c) : c = stop := by
  cases h
  rfl

/-! ### The bytes of a fence -/

theorem rest_ne_nil (h : Scans stop inWord (n + 1) c) : c.rest ≠ [] := by
  cases h with
  | enter hc | leave hc | string hc | gap hc | letter hc =>
      rw [hc]
      exact List.cons_ne_nil _ _

variable {b : UInt8} {rest : Bytes}

theorem of_opens (h : Scans stop inWord (n + 1) c) (hc : c.rest = b :: rest) (hb : opens b) :
    inWord = false ∧ Scans stop false (n + 2) (c.advance 1) := by
  cases h with
  | enter _ _ h => exact ⟨rfl, h⟩
  | leave hc' hb' =>
      cases hc.symm.trans hc'
      exact absurd hb (not_opens_of_closes hb')
  | string hc' =>
      cases hc.symm.trans hc'
      exact absurd hb (by decide)
  | gap hc' hb' | letter hc' hb' =>
      cases hc.symm.trans hc'
      exact absurd hb (not_opens_of_isInert hb')

theorem of_closes (h : Scans stop inWord (n + 1) c) (hc : c.rest = b :: rest) (hb : closes b) :
    Scans stop false n (c.advance 1) := by
  cases h with
  | leave _ _ h => exact h
  | enter hc' hb' =>
      cases hc.symm.trans hc'
      exact absurd hb' (not_opens_of_closes hb)
  | string hc' =>
      cases hc.symm.trans hc'
      exact absurd hb (by decide)
  | gap hc' hb' | letter hc' hb' =>
      cases hc.symm.trans hc'
      exact absurd hb (not_closes_of_isInert hb')

theorem of_quote (h : Scans stop inWord (n + 1) c) (hc : c.rest = Byte.quote :: rest) :
    ∃ index, closingQuote? 0 rest = some index ∧ Scans stop false (n + 1) (c.advance (index + 2)) := by
  cases h with
  | string hc' hq h =>
      cases hc.symm.trans hc'
      exact ⟨_, hq, h⟩
  | enter hc' hb' =>
      cases hc.symm.trans hc'
      exact absurd hb' (by decide)
  | leave hc' hb' =>
      cases hc.symm.trans hc'
      exact absurd hb' (by decide)
  | gap hc' hb' | letter hc' hb' =>
      cases hc.symm.trans hc'
      exact absurd hb' (by decide)

theorem of_isInert (h : Scans stop inWord (n + 1) c) (hc : c.rest = b :: rest) (hb : isInert b) :
    Scans stop (!endsWord b) (n + 1) (c.advance 1) := by
  cases h with
  | enter hc' hb' =>
      cases hc.symm.trans hc'
      exact absurd hb' (not_opens_of_isInert hb)
  | leave hc' hb' =>
      cases hc.symm.trans hc'
      exact absurd hb' (not_closes_of_isInert hb)
  | string hc' =>
      cases hc.symm.trans hc'
      exact absurd hb (by decide)
  | gap hc' _ hends h | letter hc' _ hends h =>
      cases hc.symm.trans hc'
      rw [hends]
      exact h

theorem skipWord {pos : Nat} {bs : Bytes} (h : Scans stop true (n + 1) ⟨pos, bs⟩) :
    Scans stop true (n + 1) (Cursor.skipWhile (fun b => !endsWord b) ⟨pos, bs⟩) := by
  induction bs generalizing pos with
  | nil => exact h
  | cons b rest ih =>
      cases hends : endsWord b with
      | true =>
          rw [Cursor.skipWhile_of_neg rfl (by simp [hends])]
          exact h
      | false =>
          rw [Cursor.skipWhile_cons rfl (by simp [hends])]
          have hopen : ¬ opens b := fun hb => absurd (h.of_opens rfl hb).1 (by decide)
          have hnext := h.of_isInert rfl (isInert_of_letter hends hopen)
          rw [hends] at hnext
          exact ih hnext

end Scans

/-- The fence of a text that ends at `stop`. -/
def Fence.until (stop : Cursor) : Fence where
  inside n c := Scans stop false n c
  rest_ne_nil h := h.rest_ne_nil
  enter h hc hb := (h.of_opens hc hb).2
  leave h hc hb := h.of_closes hc hb
  string h hc := h.of_quote hc
  inert h hc hb := (h.of_isInert hc hb).relax
  word {n c b rest} h hc hopen hends := by
    have hends : endsWord b = false := by simpa using hends
    have hopen : ¬ opens b := by simpa using hopen
    have hnext := h.of_isInert hc (isInert_of_letter hends hopen)
    rw [hends] at hnext
    rw [Cursor.skipWhile_cons hc (by simp [hends])]
    exact hnext.skipWord.relax

end Intake.Record
