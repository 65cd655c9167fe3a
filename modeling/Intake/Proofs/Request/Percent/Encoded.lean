import Intake.Proofs.Checked
import Intake.Proofs.Request.Percent.Units

/-!
# Decoding undoes encoding

A text has many encodings: any byte may be escaped, with digits of either case, and those that mean
nothing to the decoder may stand for themselves. Whichever of them is chosen for each byte, decoding
gives the text back, and ends where the encoding ends.
-/

namespace Intake.Request.Percent

/-- The ways to write one byte. -/
inductive EncodesByte (b : UInt8) : Bytes → Prop
  | literal (hb : isDelimiter b = false) (hpercent : b ≠ Byte.percent) (hplus : b ≠ Byte.plus) :
      EncodesByte b [b]
  | plus (hb : b = Byte.space) : EncodesByte b [Byte.plus]
  | escape {high low : UInt8} (hhigh : Byte.hexDigit? high = some (b.toNat / 16))
      (hlow : Byte.hexDigit? low = some (b.toNat % 16)) : EncodesByte b [Byte.percent, high, low]

/-- The text is written byte by byte. -/
inductive Encodes : Bytes → Bytes → Prop
  | nil : Encodes [] []
  | cons {b : UInt8} {unit text raw : Bytes} (h : EncodesByte b unit) (hrest : Encodes text raw) :
      Encodes (b :: text) (unit ++ raw)

variable {text raw rest : Bytes}

theorem ofNat_halves (b : UInt8) : UInt8.ofNat (b.toNat / 16) * 16 + UInt8.ofNat (b.toNat % 16) = b := by
  have hlt : b.toNat < 256 := b.toNat_lt
  apply UInt8.toNat_inj.1
  simp
  omega

theorem Encodes.denotes (h : Encodes text raw) : Denotes text raw := by
  induction h with
  | nil => exact .nil
  | @cons b unit text raw hunit _ ih =>
      cases hunit with
      | literal hb hpercent hplus => exact .plain hb hpercent hplus ih
      | plus hb =>
          rw [hb]
          exact .plus ih
      | escape hhigh hlow =>
          have hvalue := ofNat_halves b
          rw [← nibble_of_hexDigit? hhigh, ← nibble_of_hexDigit? hlow] at hvalue
          rw [← hvalue]
          exact .escape ih

/-- Nothing in an encoded text ends it. -/
theorem Encodes.isDelimiter_eq_false (h : Encodes text raw) {b : UInt8}
    (hb : b ∈ raw) : isDelimiter b = false := by
  have hdigit {b : UInt8} {n : Nat} (hn : Byte.hexDigit? b = some n) : isDelimiter b = false := by
    refine Bool.eq_false_iff.2 fun hdelimiter => ?_
    simp only [isDelimiter, Bool.or_eq_true, beq_iff_eq] at hdelimiter
    rcases hdelimiter with (rfl | rfl) | rfl <;> cases hn
  induction h with
  | nil => exact absurd hb List.not_mem_nil
  | cons hunit _ ih =>
      rcases List.mem_append.1 hb with hb | hb
      · cases hunit with
        | literal hliteral => exact List.mem_singleton.1 hb ▸ hliteral
        | plus => exact List.mem_singleton.1 hb ▸ rfl
        | escape hhigh hlow =>
            simp only [List.mem_cons, List.not_mem_nil, or_false] at hb
            rcases hb with rfl | rfl | rfl
            · rfl
            · exact hdigit hhigh
            · exact hdigit hlow
      · exact ih hb

/-- **Decoding undoes encoding.** Where the input ends behind an encoding of a text, or a delimiter
follows it, decoding writes the text behind what the arena held and stops there. -/
theorem decode_encoded {arena : Arena} (h : Encodes text raw) (hrest : ∀ b ∈ rest.head?, isDelimiter b)
    (hroom : text.length ≤ arena.remaining) (front : Bytes) :
    let input := front ++ (raw ++ rest)
    let d := decode arena (.within input front.length)
    d.arena.contents = arena.contents ++ text ∧ d.arena.capacity = arena.capacity ∧
      d.after = .within input (front.length + raw.length) ∧
      d.outcome = .ok (if rest = [] then .exhausted text.length else .complete text.length) := by
  intro input d
  have hstart : Cursor.within input front.length = ⟨front.length, raw ++ rest⟩ := by
    simp [input, Cursor.within]
  have hend : Cursor.within input (front.length + raw.length) = ⟨front.length + raw.length, rest⟩ := by
    simp [← Cursor.advance_within, hstart, Cursor.advance]
  have hdecode := decode_of_denotes h.denotes hrest hroom front.length
  rw [← hstart, ← hend] at hdecode
  exact hdecode

/-- A space as a plus sign and as an escape, an ampersand that is no delimiter, and digits of either
case. -/
theorem decode_encoded_mixed :
    let text := Utf8.ofString "a  &Z"
    let input := Utf8.ofString "q=a+%20%26%5a&b"
    let arena : Arena := ⟨#[0x78], 8, by decide⟩
    Encodes text (Utf8.ofString "a+%20%26%5a") ∧
      (decode arena (.within input 2)).arena.contents = 0x78 :: text ∧
      (decode arena (.within input 2)).outcome = .ok (.complete 5) := by
  intro text input arena
  have htext : text = [0x61, 0x20, 0x20, 0x26, 0x5A] := by decide
  have hraw : Utf8.ofString "a+%20%26%5a" = [0x61] ++ ([Byte.plus] ++ ([Byte.percent, 0x32, 0x30] ++
      ([Byte.percent, 0x32, 0x36] ++ ([Byte.percent, 0x35, 0x61] ++ [])))) := by
    decide
  have hencodes : Encodes text (Utf8.ofString "a+%20%26%5a") := by
    rw [htext, hraw]
    refine .cons (.literal rfl (by decide) (by decide)) ?_
    refine .cons (.plus rfl) ?_
    exact .cons (.escape rfl rfl) <| .cons (.escape rfl rfl) <| .cons (.escape rfl rfl) .nil
  have hhead : (Utf8.ofString "&b").head? = some Byte.ampersand := by decide
  have hstop : ∀ b ∈ (Utf8.ofString "&b").head?, isDelimiter b := by
    intro b hb
    rw [hhead, Option.mem_some_iff] at hb
    exact hb ▸ rfl
  have hroom : text.length ≤ arena.remaining := by decide
  obtain ⟨hcontents, -, -, houtcome⟩ := decode_encoded hencodes hstop hroom (Utf8.ofString "q=")
  exact ⟨hencodes, hcontents, houtcome⟩

end Intake.Request.Percent
