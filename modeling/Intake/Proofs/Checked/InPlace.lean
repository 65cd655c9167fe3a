import Intake.Proofs.Checked.Parameter

/-!
# Reading values in place

The values of a request are decoded into one arena. What was written for a value that is refused, or
that is only looked at, is taken back: the arena is truncated to where the value began. Reading is
written out here once more with these truncations, and the arena that it leaves is the one that it is
given unless a text is kept or the room gives out.

For lists of group keys this means that the names, which are looked up one after the other in what was
decoded, are gone again when the list is accepted, and also when a name in its middle is refused.
-/

namespace Intake

namespace Request

/-- Why a value is not accepted. -/
inductive Refusal where
  | malformed
  | overflow (overflow : Overflow)
deriving DecidableEq

namespace Reading

variable {α : Type}

/-- What reading says of a value. -/
def answer : Reading α → Except Refusal α
  | accepted value _ => .ok value
  | malformed => .error .malformed
  | .overflow o _ => .error (.overflow o)

/-- The arena that reading leaves, which began with `before`. -/
def left (before : Arena) : Reading α → Arena
  | accepted _ arena => arena
  | malformed => before
  | .overflow _ arena => arena

/-- A value that is looked at leaves the arena as it was, accepted or not. -/
theorem left_ofOption (value : Option α) (arena : Arena) : (ofOption value arena).left arena = arena := by
  cases value <;> rfl

end Reading

/-- What reading in place comes to, and the arena it leaves. -/
structure InPlace (α : Type) where
  answer : Except Refusal α
  arena : Arena
deriving DecidableEq

def Reading.inPlace {α : Type} (reading : Reading α) (before : Arena) : InPlace α :=
  ⟨reading.answer, reading.left before⟩

end Request

open Request

namespace Checked

variable {α : Type}

/-- Decodes a text that is not empty to the end of the arena. What was written in front of a delimiter or
of a cut escape is taken back. -/
def textInPlace (raw : Bytes) (arena : Arena) : Checked (InPlace Span) := do
  if raw = [] then return ⟨.error .malformed, arena⟩
  else
    let decoded ← url raw arena 0
    match decoded.outcome with
    | .error overflow => return ⟨.error (.overflow overflow), decoded.arena⟩
    | .ok (.exhausted _) => return ⟨.ok (← finish decoded.arena arena.cursor), decoded.arena⟩
    | .ok (.complete _) | .ok (.needMore _) =>
      return ⟨.error .malformed, decoded.arena.truncate arena.cursor⟩

/-- Decodes a text only to look at it. What was written is taken back before it is refused. -/
def scratchInPlace (inspect : Bytes → Checked (Option α)) (raw : Bytes) (arena : Arena) :
    Checked (InPlace α) := do
  let text ← textInPlace raw arena
  match text.answer with
  | .error refusal => return ⟨.error refusal, text.arena⟩
  | .ok span =>
    let seen ← inspect (text.arena.view span)
    let arena := text.arena.truncate span.offset
    match seen with
    | some value => return ⟨.ok value, arena⟩
    | none => return ⟨.error .malformed, arena⟩

/-- Reads the value of a parameter of this kind. -/
def readInPlace (kind : ParameterKind) (raw : Bytes) (arena : Arena) : Checked (InPlace kind.Value) :=
  match kind with
  | .text => textInPlace raw arena
  | .status => scratchInPlace (fun text => return (Status.ofLiteral? text).map some) raw arena
  | .keys => scratchInPlace (fun text => pushNames .empty (text.splitOn Byte.comma)) raw arena
  | kind => do return (← readValue kind raw arena).inPlace arena

section InPlace

variable {arena : Arena} (hfits : arena.Fits)
include hfits

theorem textInPlace_eq (raw : Bytes) :
    textInPlace raw arena = .ok ((Reading.text raw arena).inPlace arena) := by
  unfold textInPlace Reading.text
  by_cases hraw : raw = []
  · rw [if_pos hraw, if_pos hraw]
    rfl
  have hurl : url raw arena 0 = .ok (Percent.decode arena (.start raw)) := url_eq raw hfits 0
  have hext : arena.Extends (Percent.decode arena (.start raw)).arena := extends_percent 0 arena 0 raw
  rw [if_neg hraw, if_neg hraw, hurl, ok_bind]
  dsimp only
  cases (Percent.decode arena (.start raw)).outcome with
  | error overflow => rfl
  | ok outcome =>
      cases outcome with
      | complete | needMore =>
          dsimp only
          rw [hext.truncate]
          rfl
      | exhausted written =>
          dsimp only
          rw [finish_eq hext.cursor_le]
          rfl

theorem scratchInPlace_eq {inspect : Bytes → Checked (Option α)} {parse : Bytes → Option α}
    (h : ∀ text, inspect text = .ok (parse text)) (raw : Bytes) :
    scratchInPlace inspect raw arena = .ok ((Reading.scratch parse raw arena).inPlace arena) := by
  rw [scratchInPlace, textInPlace_eq hfits, ok_bind, Reading.scratch]
  cases htext : Reading.text raw arena with
  | malformed | overflow => rfl
  | accepted span written =>
      have haccepted : ParameterKind.text.read raw arena = .accepted span written := htext
      have hext := (read_accepted hfits haccepted).1
      have hoffset : written.truncate span.offset = arena := by
        rw [text_accepted htext]
        exact hext.truncate
      simp only [Reading.inPlace, Reading.answer, Reading.left, h, ok_bind, hoffset]
      cases parse (written.view span) <;> rfl

/-- Reading in place says of a value what reading says, and leaves the arena that it leaves. -/
theorem readInPlace_eq (kind : ParameterKind) (raw : Bytes) :
    readInPlace kind raw arena = .ok ((kind.read raw arena).inPlace arena) := by
  cases kind with
  | text => exact textInPlace_eq hfits raw
  | status =>
      exact scratchInPlace_eq hfits
        (fun text => Eq.refl (Except.ok ((Status.ofLiteral? text).map some))) raw
  | keys => exact scratchInPlace_eq hfits (fun text => pushNames_eq .empty _) raw
  | sex | flag | signed | count | code | limit | order =>
      show (readValue _ raw arena >>= _) = _
      rw [readValue_eq hfits, ok_bind]
      rfl

end InPlace

end Checked

namespace Request

variable {raw text : Bytes} {arena : Arena}

/-- Decoding runs through all of the raw value and writes the text. -/
def Percent.RunsThrough (arena : Arena) (raw text : Bytes) : Prop :=
  let d := decode arena (.start raw)
  (∃ written, d.outcome = .ok (.exhausted written)) ∧ d.arena.contents = arena.contents ++ text

theorem Percent.RunsThrough.unique {other : Bytes} (h : RunsThrough arena raw text)
    (h' : RunsThrough arena raw other) : text = other :=
  List.append_cancel_left (h.2.symm.trans h'.2)

section Scratch

variable {α : Type} {inspect : Bytes → Option α}

theorem scratch_of_runsThrough (hfits : arena.Fits) (hraw : raw ≠ [])
    (h : Percent.RunsThrough arena raw text) :
    Reading.scratch inspect raw arena = .ofOption (inspect text) arena := by
  obtain ⟨⟨written, houtcome⟩, hcontents⟩ := h
  have hroom : (Percent.decode arena (.start raw)).arena.Fits := fits_percent 0 0 raw hfits
  have hview := congrArg (Option.getD · []) (Arena.get?_finish hcontents hroom)
  simp only [Reading.scratch, Reading.text, if_neg hraw, houtcome]
  exact congrArg (fun seen => Reading.ofOption (inspect seen) arena) hview

/-- A value that is not decoded as a whole is refused, unless the room gives out. -/
theorem scratch_of_not_runsThrough
    (hroom : ∀ o, (Percent.decode arena (.start raw)).outcome ≠ .error o)
    (h : ¬ (raw ≠ [] ∧ ∃ text, Percent.RunsThrough arena raw text)) :
    Reading.scratch inspect raw arena = .malformed := by
  rw [Reading.scratch, Reading.text]
  by_cases hraw : raw = []
  · rw [if_pos hraw]
  rw [if_neg hraw]
  dsimp only
  cases houtcome : (Percent.decode arena (.start raw)).outcome with
  | error o => exact absurd houtcome (hroom o)
  | ok outcome =>
      cases outcome with
      | complete | needMore => rfl
      | exhausted written =>
          obtain ⟨text, htext⟩ := (extends_percent 0 arena 0 raw).1
          exact absurd ⟨hraw, text, ⟨written, houtcome⟩, htext.symm⟩ h

/-- With enough room a value is accepted just when it is decoded as a whole and its text is taken for
something, and it leaves nothing. -/
theorem scratch_spec (hfits : arena.Fits)
    (hroom : ∀ o, (Percent.decode arena (.start raw)).outcome ≠ .error o) :
    ∃ seen : Option α, Reading.scratch inspect raw arena = .ofOption seen arena ∧
      ∀ value, seen = some value ↔
        raw ≠ [] ∧ ∃ text, Percent.RunsThrough arena raw text ∧ inspect text = some value := by
  by_cases h : raw ≠ [] ∧ ∃ text, Percent.RunsThrough arena raw text
  · obtain ⟨hraw, text, htext⟩ := h
    refine ⟨inspect text, scratch_of_runsThrough hfits hraw htext, fun value => ?_⟩
    constructor
    · exact fun hvalue => ⟨hraw, text, htext, hvalue⟩
    · rintro ⟨-, other, hother, hvalue⟩
      rwa [htext.unique hother]
  · refine ⟨none, scratch_of_not_runsThrough hroom h, fun value => ?_⟩
    constructor
    · exact fun hvalue => by cases hvalue
    · rintro ⟨hraw, text, htext, -⟩
      exact absurd ⟨hraw, text, htext⟩ h

end Scratch

theorem ofOption_eq_accepted_iff {α : Type} {seen : Option α} {value : α} {after : Arena} :
    Reading.ofOption seen arena = .accepted value after ↔ seen = some value ∧ after = arena := by
  cases seen with
  | none => simp [Reading.ofOption]
  | some => simp [Reading.ofOption, eq_comm]

/-- **Lists of group keys.** With enough room a value is accepted just when it is not empty, is decoded as a
whole, and its text names distinct keys with commas between them. These are the keys in their order, and
their bits make up the mask. Whatever the answer is, reading in place ends with the arena that it
began with. -/
theorem read_keys (hfits : arena.Fits)
    (hroom : ∀ o, (Percent.decode arena (.start raw)).outcome ≠ .error o) :
    let reading := ParameterKind.keys.read raw arena
    (∀ list, (∃ keys after, reading = .accepted keys after ∧ keys.toList = list) ↔
      raw ≠ [] ∧ ∃ text, Percent.RunsThrough arena raw text ∧ GroupKeys.Lists list text) ∧
    (∀ keys after, reading = .accepted keys after →
      after = arena ∧ ∀ i, keys.mask.testBit i ↔ ∃ key ∈ keys.toList, key.number = i) ∧
    Checked.readInPlace .keys raw arena = .ok ⟨reading.answer, arena⟩ := by
  intro reading
  obtain ⟨seen, hreading, hseen⟩ :
      ∃ seen, reading = .ofOption seen arena ∧ ∀ keys, seen = some keys ↔
        raw ≠ [] ∧ ∃ text, Percent.RunsThrough arena raw text ∧ GroupKeys.parse? text = some keys :=
    scratch_spec hfits hroom
  refine ⟨fun list => ?_, fun keys after hkeys => ?_, ?_⟩
  · simp only [GroupKeys.lists_iff]
    constructor
    · rintro ⟨keys, after, hkeys, hlist⟩
      rw [hreading, ofOption_eq_accepted_iff] at hkeys
      obtain ⟨hraw, text, htext, hparse⟩ := (hseen keys).1 hkeys.1
      exact ⟨hraw, text, htext, keys, hparse, hlist⟩
    · rintro ⟨hraw, text, htext, keys, hparse, hlist⟩
      refine ⟨keys, arena, ?_, hlist⟩
      rw [hreading, ofOption_eq_accepted_iff]
      exact ⟨(hseen keys).2 ⟨hraw, text, htext, hparse⟩, rfl⟩
  · rw [hreading, ofOption_eq_accepted_iff] at hkeys
    exact ⟨hkeys.2, fun i => GroupKeys.testBit_mask⟩
  · have hleft : reading.left arena = arena := by
      rw [hreading, Reading.left_ofOption]
    have hinPlace : Checked.readInPlace .keys raw arena = .ok (reading.inPlace arena) :=
      Checked.readInPlace_eq hfits .keys raw
    rw [hinPlace, Reading.inPlace, hleft]

/-- The comma may be written as an escape. The arena has room for what is decoded, which is less than the
value is long. -/
theorem read_keys_escape :
    let arena : Arena := ⟨#[0x6F, 0x6B], 10, by decide⟩
    let raw := Utf8.ofString "city%2Csex"
    arena.Fits ∧ (∀ o, (Percent.decode arena (.start raw)).outcome ≠ .error o) ∧
      ∃ keys, ParameterKind.keys.read raw arena = .accepted keys arena ∧
        keys.toList = [.city, .sex] ∧ keys.mask = 0b1001 ∧
        Checked.readInPlace .keys raw arena = .ok ⟨.ok keys, arena⟩ := by
  intro arena raw
  have hfits : arena.Fits := by
    show 2 ≤ 10
    decide
  have hruns : (Percent.decode arena (.start raw)).outcome = .ok (.exhausted 8) ∧
      (Percent.decode arena (.start raw)).arena.contents =
        arena.contents ++ Utf8.ofString "city,sex" := by
    decide +kernel
  have hroom : ∀ o, (Percent.decode arena (.start raw)).outcome ≠ .error o := by
    intro o ho
    cases hruns.1.symm.trans ho
  have hlists : GroupKeys.Lists [.city, .sex] (Utf8.ofString "city,sex") :=
    ⟨by decide, by decide, by decide +kernel⟩
  obtain ⟨haccepts, hkept, hinPlace⟩ := read_keys hfits hroom
  obtain ⟨keys, after, hkeys, hlist⟩ :=
    (haccepts _).2 ⟨by decide +kernel, _, ⟨⟨_, hruns.1⟩, hruns.2⟩, hlists⟩
  obtain ⟨rfl, -⟩ := hkept keys after hkeys
  rw [hkeys] at hinPlace
  refine ⟨hfits, hroom, keys, hkeys, hlist, ?_, hinPlace⟩
  rw [GroupKeys.mask, hlist]
  rfl

/-- An empty name behind a good one. -/
example : Checked.readInPlace .keys (Utf8.ofString "sex,,city") ⟨#[0x6F, 0x6B], 11, by decide⟩ =
    .ok ⟨.error .malformed, ⟨#[0x6F, 0x6B], 11, by decide⟩⟩ := by
  decide +kernel

end Request

end Intake
