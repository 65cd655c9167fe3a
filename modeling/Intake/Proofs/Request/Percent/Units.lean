import Intake.Proofs.Request.Percent

/-!
# The units of a percent-encoded value

Decoding takes one unit after the other, and how a unit is decoded does not depend on what follows it.
Whole units in front of a delimiter, or of the end, are therefore decoded to what they stand for.
-/

namespace Intake.Request.Percent

variable {arena next : Arena} {b high low : UInt8} {text raw rest : Bytes}

/-! ### Units in a row -/

theorem remaining_of_push (h : arena.push b = .ok next) : next.remaining + 1 = arena.remaining := by
  have hcursor := (cursor_of_push h).1
  have hroom := Arena.room_of_extend h
  rw [Arena.remaining, Arena.capacity_extend h, hcursor]
  rw [List.length_singleton, Arena.remaining] at hroom
  rw [Arena.remaining]
  omega

theorem remaining_eq_zero_of_push {o : Overflow} (h : arena.push b = .error o) : arena.remaining = 0 := by
  unfold Arena.push Arena.extend at h
  split at h
  · cases h
  next hroom =>
    rw [List.length_singleton] at hroom
    omega

theorem exists_push (b : UInt8) (h : 0 < arena.remaining) : ∃ next, arena.push b = .ok next :=
  ⟨_, if_pos h⟩

/-- The unit at the front is decoded to `value` if there is room, whatever follows it. -/
def Advances (unit : Bytes) (value : UInt8) : Prop :=
  ∀ (arena next : Arena), arena.push value = .ok next → ∀ written pos rest,
    decodeFrom written arena pos (unit ++ rest) =
      decodeFrom (written + 1) next (pos + unit.length) rest

theorem advances_byte (hb : isDelimiter b = false) (hpercent : b ≠ Byte.percent) :
    Advances [b] (if b = Byte.plus then Byte.space else b) := by
  intro arena next hpush written pos rest
  rw [List.singleton_append, decodeFrom.eq_def]
  simp only [hb, Bool.false_eq_true, if_false, hpercent, hpush, List.length_singleton]

theorem advances_escape (high low : UInt8) :
    Advances [Byte.percent, high, low] (nibble high * 16 + nibble low) := by
  intro arena next hpush written pos rest
  rw [List.cons_append, List.cons_append, List.singleton_append, decodeFrom.eq_def]
  simp only [hpush]
  rfl

/-- The text is written and decoding goes on behind the units that stand for it. -/
def Decodes (arena : Arena) (text raw : Bytes) : Prop :=
  ∃ after : Arena, after.contents = arena.contents ++ text ∧ after.capacity = arena.capacity ∧
    ∀ written pos rest, decodeFrom written arena pos (raw ++ rest) =
      decodeFrom (written + text.length) after (pos + raw.length) rest

theorem decodes_unit {unit : Bytes} {value : UInt8} (hunit : Advances unit value)
    (hroom : (value :: text).length ≤ arena.remaining)
    (h : ∀ {next : Arena}, text.length ≤ next.remaining → Decodes next text raw) :
    Decodes arena (value :: text) (unit ++ raw) := by
  rw [List.length_cons] at hroom
  obtain ⟨next, hpush⟩ := exists_push value (Nat.lt_of_lt_of_le (Nat.succ_pos _) hroom)
  have hremaining := remaining_of_push hpush
  have htext : text.length ≤ next.remaining := by omega
  obtain ⟨after, hcontents, hcapacity, hdecode⟩ := h htext
  refine ⟨after, ?_, hcapacity.trans (Arena.capacity_extend hpush), fun written pos rest => ?_⟩
  · rw [hcontents, Arena.contents_extend hpush, List.append_assoc, List.singleton_append]
  · rw [List.append_assoc, hunit _ _ hpush, hdecode, List.length_cons, List.length_append]
    congr 1 <;> omega

theorem decodes_of_denotes (h : Denotes text raw) (hroom : text.length ≤ arena.remaining) :
    Decodes arena text raw := by
  induction h generalizing arena with
  | nil => exact ⟨arena, (List.append_nil _).symm, rfl, fun written pos rest => rfl⟩
  | plain hb hpercent hplus h ih =>
      have hunit := advances_byte hb hpercent
      rw [if_neg hplus] at hunit
      exact decodes_unit hunit hroom ih
  | plus h ih => exact decodes_unit (advances_byte (b := Byte.plus) rfl (by decide)) hroom ih
  | escape h ih => exact decodes_unit (advances_escape _ _) hroom ih

/-- Decoding whole units that the input or a delimiter ends writes what they stand for. -/
theorem decode_of_denotes (h : Denotes text raw) (hstop : ∀ b ∈ rest.head?, isDelimiter b)
    (hroom : text.length ≤ arena.remaining) (pos : Nat) :
    let d := decode arena ⟨pos, raw ++ rest⟩
    d.arena.contents = arena.contents ++ text ∧ d.arena.capacity = arena.capacity ∧
      d.after = ⟨pos + raw.length, rest⟩ ∧
      d.outcome = .ok (if rest = [] then .exhausted text.length else .complete text.length) := by
  intro d
  obtain ⟨after, hcontents, hcapacity, hdecode⟩ := decodes_of_denotes h hroom
  have hend (written pos : Nat) : decodeFrom written after pos rest =
      ⟨.ok (if rest = [] then .exhausted written else .complete written), after, ⟨pos, rest⟩⟩ := by
    cases rest with
    | nil => rfl
    | cons b rest =>
        rw [decodeFrom.eq_def]
        exact if_pos (hstop b rfl)
  have hd : d = _ := (hdecode 0 pos rest).trans (hend _ _)
  rw [hd, Nat.zero_add]
  exact ⟨hcontents, hcapacity, rfl, rfl⟩

/-! ### The first delimiter -/

/-- How many bytes stand in front of the first delimiter, or of the end if there is none. -/
def reach (bs : Bytes) : Nat := bs.findIdx isDelimiter

theorem reach_of_delimiter (hb : isDelimiter b) (rest : Bytes) : reach (b :: rest) = 0 := by
  rw [reach, List.findIdx_cons, hb, cond_true]

theorem reach_cons (hb : isDelimiter b = false) (rest : Bytes) : reach (b :: rest) = reach rest + 1 := by
  rw [reach, List.findIdx_cons, hb, cond_false, reach]

theorem isDelimiter_percent : isDelimiter Byte.percent = false := rfl

/-- A delimiter in place of a digit is the first, or one comes before it. -/
theorem reach_le_two (h : isDelimiter high ∨ isDelimiter low) (rest : Bytes) :
    reach (Byte.percent :: high :: low :: rest) ≤ 2 := by
  have hpercent := reach_cons isDelimiter_percent (high :: low :: rest)
  cases hhigh : isDelimiter high with
  | true =>
      have hfirst := reach_of_delimiter hhigh (low :: rest)
      omega
  | false =>
      have hfirst := reach_cons hhigh (low :: rest)
      have hsecond := reach_of_delimiter (h.resolve_left (Bool.eq_false_iff.1 hhigh)) rest
      omega

theorem reach_escape (hhigh : isDelimiter high = false) (hlow : isDelimiter low = false) (rest : Bytes) :
    reach (Byte.percent :: high :: low :: rest) = reach rest + 3 := by
  rw [reach_cons isDelimiter_percent, reach_cons hhigh, reach_cons hlow]

theorem isDelimiter_of_reach (bs : Bytes) : ∀ b ∈ (bs.drop (reach bs)).head?, isDelimiter b := by
  intro b hb
  rw [List.head?_drop] at hb
  obtain ⟨hlt, rfl⟩ := List.getElem?_eq_some_iff.1 hb
  exact List.findIdx_getElem

/-! ### Where decoding stops -/

theorem reaches_decodeFrom (written : Nat) (arena : Arena) (pos : Nat) (raw : Bytes) :
    Cursor.Reaches ⟨pos, raw⟩ (decodeFrom written arena pos raw).after := by
  fun_induction decodeFrom written arena pos raw with
  | case1 | case2 | case3 | case5 | case6 | case7 => exact .refl _
  | case4 _ _ pos high low tail _ _ _ ih =>
      exact .trans (Cursor.reaches_advance ⟨pos, Byte.percent :: high :: low :: tail⟩ (Nat.le_add_left 3 _)) ih
  | case8 _ _ pos b rest _ _ _ _ ih =>
      exact .trans (Cursor.reaches_advance ⟨pos, b :: rest⟩ (Nat.le_add_left 1 _)) ih

theorem delimiter_of_complete {written pos n : Nat}
    (h : (decodeFrom written arena pos raw).outcome = .ok (.complete n)) :
    ∃ b rest, (decodeFrom written arena pos raw).after.rest = b :: rest ∧ isDelimiter b := by
  fun_induction decodeFrom written arena pos raw with
  | case1 | case3 | case5 | case6 | case7 => cases h
  | case2 _ _ _ b rest hb => exact ⟨b, rest, rfl, hb⟩
  | case4 _ _ _ _ _ _ _ _ _ ih | case8 _ _ _ _ _ _ _ _ _ ih => exact ih h

end Intake.Request.Percent
