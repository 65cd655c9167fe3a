import Intake.Proofs.Arena
import Intake.Request.Percent

/-!
# What percent-encoded values stand for

An encoded value stands for one text at most, which is no longer than the value. Decoding a whole value
writes that text behind what the arena holds already. It stops short of the end just when the value
stands for nothing, and it runs out of room only in an arena that has less of it than the value is
long.
-/

namespace Intake.Request.Percent

/-- The encoded value `raw` stands for `text`. -/
inductive Denotes : Bytes → Bytes → Prop
  | nil : Denotes [] []
  | plain {b : UInt8} {text raw : Bytes} (hb : isDelimiter b = false) (hpercent : b ≠ Byte.percent)
      (hplus : b ≠ Byte.plus) (h : Denotes text raw) : Denotes (b :: text) (b :: raw)
  | plus {text raw : Bytes} (h : Denotes text raw) :
      Denotes (Byte.space :: text) (Byte.plus :: raw)
  | escape {high low : UInt8} {text raw : Bytes} (h : Denotes text raw) :
      Denotes ((nibble high * 16 + nibble low) :: text) (Byte.percent :: high :: low :: raw)

theorem nibble_of_hexDigit? {b : UInt8} {digit : Nat} (h : Byte.hexDigit? b = some digit) :
    nibble b = .ofNat digit := by
  have hall : ∀ i : Fin 256, ∀ n ∈ Byte.hexDigit? (.ofFin i), nibble (.ofFin i) = .ofNat n := by
    decide +kernel
  exact hall b.toFin digit h

variable {text raw : Bytes}

theorem Denotes.unique {other : Bytes} (h : Denotes text raw) (h' : Denotes other raw) :
    text = other := by
  induction h generalizing other with
  | nil =>
      cases h'
      rfl
  | plain _ hpercent hplus _ ih =>
      cases h' with
      | plain _ _ _ h' => rw [ih h']
      | plus => exact absurd rfl hplus
      | escape => exact absurd rfl hpercent
  | plus _ ih =>
      cases h' with
      | plain _ _ hplus => exact absurd rfl hplus
      | plus h' => rw [ih h']
  | escape _ ih =>
      cases h' with
      | plain _ hpercent => exact absurd rfl hpercent
      | escape h' => rw [ih h']

theorem Denotes.length_le (h : Denotes text raw) : text.length ≤ raw.length := by
  induction h with
  | nil => exact Nat.le_refl _
  | plain _ _ _ _ ih | plus _ ih => exact Nat.succ_le_succ ih
  | escape _ ih =>
      simp only [List.length_cons]
      omega

theorem Denotes.eq_nil_iff (h : Denotes text raw) : text = [] ↔ raw = [] := by
  cases h <;> simp

/-- A byte that is neither a delimiter nor the start of an escape is a unit of its own. -/
theorem denotes_cons_iff {b : UInt8} (hb : ¬ isDelimiter b = true) (hpercent : b ≠ Byte.percent) :
    Denotes text (b :: raw) ↔
      ∃ tail, text = (if b = Byte.plus then Byte.space else b) :: tail ∧ Denotes tail raw := by
  constructor
  · intro h
    cases h with
    | plain _ _ hplus h => exact ⟨_, by rw [if_neg hplus], h⟩
    | plus h => exact ⟨_, rfl, h⟩
    | escape => exact absurd rfl hpercent
  · rintro ⟨tail, rfl, h⟩
    by_cases hplus : b = Byte.plus
    · subst hplus
      exact .plus h
    · rw [if_neg hplus]
      exact .plain (Bool.eq_false_iff.2 hb) hpercent hplus h

theorem denotes_escape_iff {high low : UInt8} : Denotes text (Byte.percent :: high :: low :: raw) ↔
    ∃ tail, text = (nibble high * 16 + nibble low) :: tail ∧ Denotes tail raw := by
  constructor
  · intro h
    cases h with
    | plain _ hpercent => exact absurd rfl hpercent
    | escape h => exact ⟨_, rfl, h⟩
  · rintro ⟨tail, rfl, h⟩
    exact .escape h

theorem not_denotes_delimiter {b : UInt8} (hb : isDelimiter b = true) (text : Bytes) :
    ¬ Denotes text (b :: raw) := by
  intro h
  cases h with
  | plain hb' => rw [hb] at hb'; cases hb'
  | plus => cases hb
  | escape => cases hb

/-- An escape that the end of the value cuts short stands for nothing. -/
theorem not_denotes_short (hraw : raw.length < 2) (text : Bytes) :
    ¬ Denotes text (Byte.percent :: raw) := by
  intro h
  cases h with
  | plain _ hpercent => exact absurd rfl hpercent
  | escape =>
      simp only [List.length_cons] at hraw
      omega

/-! ### Decoding -/

/-- What decoding all of `raw` makes of an arena. -/
inductive Writes (raw : Bytes) (arena : Arena) : Decoded → Prop
  | exhausted {text : Bytes} {written : Nat} {b : Arena} {after : Cursor} (h : Denotes text raw)
      (hcontents : b.contents = arena.contents ++ text) (hfits : b.cursor ≤ b.capacity) :
      Writes raw arena ⟨.ok (.exhausted written), b, after⟩
  | complete {written : Nat} {b : Arena} {after : Cursor} (h : ∀ text, ¬ Denotes text raw) :
      Writes raw arena ⟨.ok (.complete written), b, after⟩
  | needMore {missing : Nat} {b : Arena} {after : Cursor} (h : ∀ text, ¬ Denotes text raw) :
      Writes raw arena ⟨.ok (.needMore missing), b, after⟩
  | overflow {o : Overflow} {b : Arena} {after : Cursor}
      (h : arena.capacity < arena.cursor + raw.length) : Writes raw arena ⟨.error o, b, after⟩

section Writes

variable {arena next : Arena} {b : UInt8}

theorem cursor_of_push (h : arena.push b = .ok next) :
    next.cursor = arena.cursor + 1 ∧ next.cursor ≤ next.capacity := by
  have hcursor : next.cursor = arena.cursor + 1 := by
    rw [← Arena.length_contents, Arena.contents_extend h, List.length_append, Arena.length_contents]
    rfl
  refine ⟨hcursor, ?_⟩
  rw [hcursor, Arena.capacity_extend h]
  unfold Arena.push Arena.extend at h
  split at h
  next hroom =>
    rw [Arena.remaining, List.length_singleton] at hroom
    omega
  · cases h

theorem lt_of_push {o : Overflow} (h : arena.push b = .error o) : arena.capacity < arena.cursor + 1 := by
  unfold Arena.push Arena.extend at h
  split at h
  · cases h
  next hfull =>
    rw [Arena.remaining, List.length_singleton] at hfull
    omega

theorem Writes.after_unit {rest : Bytes} {d : Decoded} (hpush : arena.push b = .ok next)
    (hlength : rest.length < raw.length)
    (hunit : ∀ {text}, Denotes text raw ↔ ∃ tail, text = b :: tail ∧ Denotes tail rest)
    (h : Writes rest next d) : Writes raw arena d := by
  have hcursor := (cursor_of_push hpush).1
  have hnone (hrest : ∀ text, ¬ Denotes text rest) (text : Bytes) : ¬ Denotes text raw := by
    intro htext
    obtain ⟨tail, -, htail⟩ := hunit.1 htext
    exact hrest tail htail
  cases h with
  | exhausted htext hcontents hfits =>
      refine .exhausted (hunit.2 ⟨_, rfl, htext⟩) ?_ hfits
      rw [hcontents, Arena.contents_extend hpush, List.append_assoc, List.singleton_append]
  | complete hrest => exact .complete (hnone hrest)
  | needMore hrest => exact .needMore (hnone hrest)
  | overflow hfull =>
      refine .overflow ?_
      rw [Arena.capacity_extend hpush, hcursor] at hfull
      omega

theorem writes_decodeFrom (raw : Bytes) (written pos : Nat) (hfits : arena.cursor ≤ arena.capacity) :
    Writes raw arena (decodeFrom written arena pos raw) := by
  fun_induction decodeFrom written arena pos raw with
  | case1 => exact .exhausted .nil (List.append_nil _).symm hfits
  | case2 _ _ _ b rest hb => exact .complete (not_denotes_delimiter hb)
  | case3 _ _ _ high low tail o hpush =>
      have hfull := lt_of_push hpush
      exact .overflow (by simp only [List.length_cons]; omega)
  | case4 _ _ _ high low tail next hpush _ ih =>
      refine .after_unit hpush ?_ denotes_escape_iff (ih (cursor_of_push hpush).2)
      simp only [List.length_cons]
      omega
  | case5 => exact .needMore (not_denotes_short Nat.one_lt_two)
  | case6 => exact .needMore (not_denotes_short Nat.zero_lt_two)
  | case7 _ _ _ b rest _ _ o hpush =>
      have hfull := lt_of_push hpush
      exact .overflow (by rw [List.length_cons]; omega)
  | case8 _ _ _ b rest hb hpercent next hpush ih =>
      exact .after_unit hpush (Nat.lt_succ_self _) (denotes_cons_iff hb hpercent)
        (ih (cursor_of_push hpush).2)

end Writes

end Intake.Request.Percent
