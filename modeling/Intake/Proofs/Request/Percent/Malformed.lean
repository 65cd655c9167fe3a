import Intake.Proofs.Checked
import Intake.Proofs.Request.Percent.Units

/-!
# Malformed escapes

An escape takes the two bytes behind its percent sign whatever they are, and a byte that is no hex digit
is to count as zero. Two things follow from how this is done. The value of a digit is looked up by the low
six bits of the byte, so a byte that shares them with a digit has the value of that digit. And a
delimiter behind a percent sign is taken for a digit, so decoding goes on past it. Everywhere else a
value is decoded as documented, and up to its first delimiter.
-/

namespace Intake.Request.Percent

variable {arena : Arena} {b high low : UInt8} {text raw rest : Bytes}

/-! ### Escapes that are decoded -/

/-- Behind units that stand for `text`, an escape of the bytes `high` and `low` begins. -/
def ComesTo (bs text : Bytes) (high low : UInt8) : Prop :=
  ∃ units tail, bs = units ++ Byte.percent :: high :: low :: tail ∧ Denotes text units

theorem not_comesTo_of_short {bs : Bytes} (h : bs.length < 3) : ¬ ComesTo bs text high low := by
  rintro ⟨units, tail, rfl, -⟩
  simp only [List.length_append, List.length_cons] at h
  omega

theorem not_comesTo_of_delimiter (hb : isDelimiter b) : ¬ ComesTo (b :: rest) text high low := by
  rintro ⟨units, tail, hsplit, hunits⟩
  cases units with
  | nil =>
      obtain rfl := (List.cons.inj hsplit).1
      cases hb
  | cons u units =>
      obtain rfl := (List.cons.inj hsplit).1
      exact not_denotes_delimiter hb text hunits

theorem comesTo_cons_iff (hb : ¬ isDelimiter b) (hpercent : b ≠ Byte.percent) :
    ComesTo (b :: rest) text high low ↔
      ∃ tail, text = (if b = Byte.plus then Byte.space else b) :: tail ∧ ComesTo rest tail high low := by
  constructor
  · rintro ⟨units, tail, hsplit, hunits⟩
    cases units with
    | nil => exact absurd (List.cons.inj hsplit).1 hpercent
    | cons u units =>
        obtain ⟨rfl, hrest⟩ := List.cons.inj hsplit
        obtain ⟨later, rfl, hlater⟩ := (denotes_cons_iff hb hpercent).1 hunits
        exact ⟨later, rfl, units, tail, hrest, hlater⟩
  · rintro ⟨later, rfl, units, tail, rfl, hlater⟩
    exact ⟨b :: units, tail, rfl, (denotes_cons_iff hb hpercent).2 ⟨later, rfl, hlater⟩⟩

theorem comesTo_escape_iff {x y : UInt8} :
    ComesTo (Byte.percent :: x :: y :: rest) text high low ↔
      (text = [] ∧ high = x ∧ low = y) ∨
        ∃ tail, text = (nibble x * 16 + nibble y) :: tail ∧ ComesTo rest tail high low := by
  constructor
  · rintro ⟨units, tail, hsplit, hunits⟩
    cases hunits with
    | nil =>
        obtain ⟨-, hdigits⟩ := List.cons.inj hsplit
        obtain ⟨hhigh, hsecond⟩ := List.cons.inj hdigits
        exact .inl ⟨rfl, hhigh.symm, (List.cons.inj hsecond).1.symm⟩
    | plain _ hpercent => exact absurd (List.cons.inj hsplit).1.symm hpercent
    | plus => exact absurd (List.cons.inj hsplit).1 (by decide)
    | escape hlater =>
        obtain ⟨-, hdigits⟩ := List.cons.inj hsplit
        obtain ⟨rfl, hsecond⟩ := List.cons.inj hdigits
        obtain ⟨rfl, hrest⟩ := List.cons.inj hsecond
        exact .inr ⟨_, rfl, _, tail, hrest, hlater⟩
  · rintro (⟨rfl, rfl, rfl⟩ | ⟨later, rfl, units, tail, rfl, hlater⟩)
    · exact ⟨[], rest, rfl, .nil⟩
    · exact ⟨Byte.percent :: x :: y :: units, tail, rfl, .escape hlater⟩

/-- One of the first `n` units is an escape, and one of its two digits satisfies `p`. -/
def Meets (p : UInt8 → Prop) (n : Nat) (bs : Bytes) : Prop :=
  ∃ text high low, ComesTo bs text high low ∧ text.length < n ∧ (p high ∨ p low)

section Meets

variable {p : UInt8 → Prop} {n : Nat}

theorem not_meets_zero (bs : Bytes) : ¬ Meets p 0 bs := by
  rintro ⟨text, high, low, -, hlength, -⟩
  exact Nat.not_lt_zero _ hlength

theorem not_meets_of_short {bs : Bytes} (h : bs.length < 3) : ¬ Meets p n bs := by
  rintro ⟨text, high, low, hcomes, -⟩
  exact not_comesTo_of_short h hcomes

theorem not_meets_of_delimiter (hb : isDelimiter b) (rest : Bytes) : ¬ Meets p n (b :: rest) := by
  rintro ⟨text, high, low, hcomes, -⟩
  exact not_comesTo_of_delimiter hb hcomes

theorem meets_cons_iff (hb : ¬ isDelimiter b) (hpercent : b ≠ Byte.percent) :
    Meets p (n + 1) (b :: rest) ↔ Meets p n rest := by
  constructor
  · rintro ⟨text, high, low, hcomes, hlength, hp⟩
    obtain ⟨tail, rfl, hlater⟩ := (comesTo_cons_iff hb hpercent).1 hcomes
    exact ⟨tail, high, low, hlater, Nat.lt_of_succ_lt_succ hlength, hp⟩
  · rintro ⟨text, high, low, hcomes, hlength, hp⟩
    exact ⟨_, high, low, (comesTo_cons_iff hb hpercent).2 ⟨text, rfl, hcomes⟩, Nat.succ_lt_succ hlength, hp⟩

theorem meets_escape_iff : Meets p (n + 1) (Byte.percent :: high :: low :: rest) ↔
    (p high ∨ p low) ∨ Meets p n rest := by
  constructor
  · rintro ⟨text, x, y, hcomes, hlength, hp⟩
    obtain ⟨-, rfl, rfl⟩ | ⟨tail, rfl, hlater⟩ := comesTo_escape_iff.1 hcomes
    · exact .inl hp
    · exact .inr ⟨tail, x, y, hlater, Nat.lt_of_succ_lt_succ hlength, hp⟩
  · rintro (hp | ⟨text, x, y, hcomes, hlength, hp⟩)
    · exact ⟨[], high, low, comesTo_escape_iff.2 (.inl ⟨rfl, rfl, rfl⟩), Nat.succ_pos n, hp⟩
    · exact ⟨_, x, y, comesTo_escape_iff.2 (.inr ⟨text, rfl, hcomes⟩), Nat.succ_lt_succ hlength, hp⟩

end Meets

/-! ### Delimiters behind a percent sign -/

/-- Decoding `raw` from `pos` on ends at the first delimiter at the latest, and at no other one. -/
structure Stops (raw : Bytes) (pos : Nat) (d : Decoded) : Prop where
  le : d.after.pos ≤ pos + reach raw
  complete : ∀ written, d.outcome = .ok (.complete written) → d.after.pos = pos + reach raw

theorem Stops.of_eq {pos : Nat} {d : Decoded} (h : d.after.pos = pos)
    (hincomplete : ∀ written, d.outcome ≠ .ok (.complete written)) : Stops raw pos d where
  le := h ▸ Nat.le_add_right _ _
  complete written hd := absurd hd (hincomplete written)

theorem stops_unit_iff (unit : Bytes) (h : reach (unit ++ rest) = reach rest + unit.length) (pos : Nat)
    (d : Decoded) : Stops (unit ++ rest) pos d ↔ Stops rest (pos + unit.length) d := by
  have hpos : pos + reach (unit ++ rest) = pos + unit.length + reach rest := by omega
  constructor
  · rintro ⟨hle, hcomplete⟩
    exact ⟨hpos ▸ hle, hpos ▸ hcomplete⟩
  · rintro ⟨hle, hcomplete⟩
    exact ⟨hpos ▸ hle, hpos ▸ hcomplete⟩

theorem stops_decodeFrom_iff (written : Nat) (arena : Arena) (pos : Nat) (raw : Bytes) :
    Stops raw pos (decodeFrom written arena pos raw) ↔ ¬ Meets (isDelimiter ·) arena.remaining raw := by
  fun_induction decodeFrom written arena pos raw with
  | case1 => exact iff_of_true (.of_eq rfl (by rintro _ ⟨⟩)) (not_meets_of_short (Nat.succ_pos 2))
  | case2 _ _ _ b rest hb =>
      refine iff_of_true ⟨Nat.le_add_right _ _, fun _ _ => ?_⟩ (not_meets_of_delimiter hb rest)
      rw [reach_of_delimiter hb, Nat.add_zero]
  | case3 _ _ _ _ _ _ _ hpush | case7 _ _ _ _ _ _ _ _ hpush =>
      rw [remaining_eq_zero_of_push hpush]
      exact iff_of_true (.of_eq rfl (by rintro _ ⟨⟩)) (not_meets_zero _)
  | case4 written _ pos high low tail next hpush _ ih =>
      rw [← remaining_of_push hpush, meets_escape_iff]
      by_cases hdelimiter : isDelimiter high ∨ isDelimiter low
      · -- The escape ends behind the first delimiter, which is one of its digits.
        have hreach := reach_le_two hdelimiter tail
        obtain ⟨read, -, hpos⟩ := reaches_decodeFrom (written + 1) next (pos + 3) tail
        refine iff_of_false (fun h => ?_) (fun h => h (.inl hdelimiter))
        have hle := h.le
        dsimp only at hpos
        omega
      · rw [or_iff_right hdelimiter, ← ih]
        rw [not_or, Bool.not_eq_true, Bool.not_eq_true] at hdelimiter
        exact stops_unit_iff [Byte.percent, high, low]
          (reach_escape hdelimiter.1 hdelimiter.2 tail) pos _
  | case5 => exact iff_of_true (.of_eq rfl (by rintro _ ⟨⟩)) (not_meets_of_short (Nat.lt_succ_self 2))
  | case6 => exact iff_of_true (.of_eq rfl (by rintro _ ⟨⟩)) (not_meets_of_short (by decide))
  | case8 _ _ pos b rest hb hpercent next hpush ih =>
      rw [← remaining_of_push hpush, meets_cons_iff hb hpercent, ← ih]
      exact stops_unit_iff [b] (reach_cons (Bool.eq_false_iff.2 hb) rest) pos _

/-- Decoding that is complete stops at a delimiter. It stops in front of the first one or at it, unless
there is room for an escape one of whose digits is a delimiter. -/
theorem stops_decode_iff (input : Bytes) (pos : Nat) (arena : Arena) :
    let d := decode arena (.within input pos)
    (∀ written, d.outcome = .ok (.complete written) → ∃ b ∈ input[d.after.pos]?, isDelimiter b) ∧
      (Stops (input.drop pos) pos d ↔ ¬ Meets (isDelimiter ·) arena.remaining (input.drop pos)) := by
  intro d
  refine ⟨fun written hcomplete => ?_, stops_decodeFrom_iff 0 arena pos (input.drop pos)⟩
  obtain ⟨b, rest, hrest, hb⟩ := delimiter_of_complete hcomplete
  have hafter : d.after = .within input d.after.pos :=
    Cursor.within_of_reaches (reaches_decodeFrom 0 arena pos (input.drop pos))
  refine ⟨b, ?_, hb⟩
  rw [Cursor.getElem?_eq_head?, ← hafter]
  exact congrArg List.head? hrest

/-- The ampersand is taken for the second digit, and what follows it for more of the value. -/
theorem beyond_ampersand :
    let input := Utf8.ofString "%2&b"
    let d := decode (.withCapacity 8) (.within input 0)
    reach input = 2 ∧ d.after.pos = 4 ∧ d.outcome = .ok (.exhausted 2) ∧ ¬ Stops input 0 d := by
  intro input d
  have hreach : reach input = 2 := by decide
  have hafter : d.after.pos = 4 := rfl
  refine ⟨hreach, hafter, rfl, fun h => ?_⟩
  have hle := h.le
  omega

/-! ### Bytes in place of digits -/

/-- The value of a hex digit of either case, and zero for any other byte. -/
def digitOrZero (b : UInt8) : UInt8 := .ofNat ((Byte.hexDigit? b).getD 0)

/-- No hex digit, but its low six bits are those of one other than zero. -/
def FalseDigit (b : UInt8) : Prop :=
  Byte.hexDigit? b = none ∧
    ∃ digit, (Byte.hexDigit? digit).isSome ∧ digit ≠ Byte.zero ∧ b &&& 0x3F = digit &&& 0x3F

theorem toNat_low (b : UInt8) : (b &&& 0x3F).toNat = b.toNat % 0x40 := by
  rw [UInt8.toNat_and]
  exact Nat.and_two_pow_sub_one_eq_mod b.toNat 6

theorem nibble_congr {a : UInt8} (h : a &&& 0x3F = b &&& 0x3F) : nibble a = nibble b := by
  have hdistance : (a - Byte.zero) &&& 0x3F = (b - Byte.zero) &&& 0x3F := by
    have hlow := congrArg UInt8.toNat h
    rw [toNat_low, toNat_low] at hlow
    rw [← UInt8.toNat_inj, toNat_low, toNat_low, UInt8.toNat_sub, UInt8.toNat_sub]
    simp only [Byte.zero, UInt8.reduceToNat]
    omega
  rw [nibble, nibble, slot, slot, hdistance]

/-- The bytes with a value are those that share their low six bits with a digit that has one. -/
theorem nibble_ne_zero_iff : nibble b ≠ 0 ↔
    ∃ digit, (Byte.hexDigit? digit).isSome ∧ digit ≠ Byte.zero ∧ b &&& 0x3F = digit &&& 0x3F := by
  -- The digit is as far behind zero as the low six bits say.
  have hall : ∀ i : Fin 256,
      let b := UInt8.ofFin i
      let digit := ((b - Byte.zero) &&& 0x3F) + Byte.zero
      ((Byte.hexDigit? b).isSome ∧ b ≠ Byte.zero → nibble b ≠ 0) ∧
        (nibble b ≠ 0 →
          (Byte.hexDigit? digit).isSome ∧ digit ≠ Byte.zero ∧ b &&& 0x3F = digit &&& 0x3F) := by
    decide +kernel
  constructor
  · exact fun h => ⟨_, (hall b.toFin).2 h⟩
  · rintro ⟨digit, hsome, hne, hlow⟩
    rw [nibble_congr hlow]
    exact (hall digit.toFin).1 ⟨hsome, hne⟩

theorem digitOrZero_of_none (h : Byte.hexDigit? b = none) : digitOrZero b = 0 := by
  rw [digitOrZero, h]
  rfl

theorem digitOrZero_of_some {value : Nat} (h : Byte.hexDigit? b = some value) :
    digitOrZero b = nibble b := by
  rw [digitOrZero, h, Option.getD_some, nibble_of_hexDigit? h]

/-- A byte has another value than the documented one just when it is taken for a digit. -/
theorem nibble_eq_digitOrZero_iff : nibble b = digitOrZero b ↔ ¬ FalseDigit b := by
  rw [FalseDigit, ← nibble_ne_zero_iff]
  cases hdigit : Byte.hexDigit? b with
  | some value => exact iff_of_true (digitOrZero_of_some hdigit).symm fun h => nomatch h.1
  | none => rw [digitOrZero_of_none hdigit, and_iff_right rfl, Decidable.not_not]

theorem nibble_lt (b : UInt8) : (nibble b).toNat < 16 := by
  have hlow := toNat_low (b - Byte.zero)
  unfold nibble slot
  generalize (b - Byte.zero) &&& 0x3F = i at hlow
  dsimp only
  repeat' split
  all_goals
    simp_all only [UInt8.lt_iff_toNat_lt, UInt8.le_iff_toNat_le, Bool.and_eq_true, decide_eq_true_eq,
      UInt8.reduceToNat, UInt8.toNat_sub]
    omega

theorem digitOrZero_lt (b : UInt8) : (digitOrZero b).toNat < 16 := by
  cases hdigit : Byte.hexDigit? b with
  | some value =>
      rw [digitOrZero_of_some hdigit]
      exact nibble_lt b
  | none =>
      rw [digitOrZero_of_none hdigit]
      decide

theorem escape_eq_iff : nibble high * 16 + nibble low = digitOrZero high * 16 + digitOrZero low ↔
    ¬ FalseDigit high ∧ ¬ FalseDigit low := by
  rw [← nibble_eq_digitOrZero_iff, ← nibble_eq_digitOrZero_iff]
  constructor
  · intro h
    have hnat := congrArg UInt8.toNat h
    have hnibble := And.intro (nibble_lt high) (nibble_lt low)
    have hdigit := And.intro (digitOrZero_lt high) (digitOrZero_lt low)
    rw [UInt8.toNat_add, UInt8.toNat_add, UInt8.toNat_mul, UInt8.toNat_mul,
      show UInt8.toNat 16 = 16 from rfl] at hnat
    exact ⟨UInt8.toNat_inj.1 (by omega), UInt8.toNat_inj.1 (by omega)⟩
  · rintro ⟨hhigh, hlow⟩
    rw [hhigh, hlow]

/-! ### Values of whole escapes -/

/-- The documented text of a value, up to its first delimiter, with the values of digits by `digit`. -/
def unescaped (digit : UInt8 → UInt8) : Bytes → Bytes
  | [] => []
  | b :: rest =>
    if isDelimiter b then []
    else if b = Byte.percent then
      match rest with
      | high :: low :: tail => (digit high * 16 + digit low) :: unescaped digit tail
      | [_] => []
      | [] => []
    else (if b = Byte.plus then Byte.space else b) :: unescaped digit rest

section Unescaped

variable {digit : UInt8 → UInt8}

theorem unescaped_of_delimiter (hb : isDelimiter b) (rest : Bytes) :
    unescaped digit (b :: rest) = [] := by
  rw [unescaped.eq_def]
  exact if_pos hb

theorem unescaped_escape (high low : UInt8) (rest : Bytes) :
    unescaped digit (Byte.percent :: high :: low :: rest) =
      (digit high * 16 + digit low) :: unescaped digit rest := by
  rw [unescaped.eq_def]
  rfl

theorem unescaped_cons (hb : ¬ isDelimiter b) (hpercent : b ≠ Byte.percent) (rest : Bytes) :
    unescaped digit (b :: rest) =
      (if b = Byte.plus then Byte.space else b) :: unescaped digit rest := by
  rw [unescaped.eq_def]
  exact (if_neg hb).trans (if_neg hpercent)

theorem length_unescaped (digit digit' : UInt8 → UInt8) (bs : Bytes) :
    (unescaped digit bs).length = (unescaped digit' bs).length := by
  fun_induction unescaped digit bs with
  | case1 | case4 | case5 => rfl
  | case2 b rest hb => rw [unescaped_of_delimiter hb]
  | case3 _ high low tail ih => rw [unescaped_escape, List.length_cons, List.length_cons, ih]
  | case6 b rest hb hpercent ih => rw [unescaped_cons hb hpercent, List.length_cons, List.length_cons, ih]

end Unescaped

/-- The values of digits are as documented if no unit of the text is an escape of a false digit. -/
theorem unescaped_eq_iff {bs : Bytes} {n : Nat} (hn : (unescaped nibble bs).length ≤ n) :
    unescaped nibble bs = unescaped digitOrZero bs ↔ ¬ Meets FalseDigit n bs := by
  fun_induction unescaped nibble bs generalizing n with
  | case1 => exact iff_of_true rfl (not_meets_of_short (Nat.succ_pos 2))
  | case2 b rest hb => exact iff_of_true (unescaped_of_delimiter hb rest).symm (not_meets_of_delimiter hb rest)
  | case3 _ high low tail ih =>
      obtain ⟨n, rfl⟩ := Nat.exists_eq_add_one.2 (Nat.lt_of_lt_of_le (Nat.succ_pos _) hn)
      rw [unescaped_escape, List.cons_eq_cons, escape_eq_iff, ih (Nat.le_of_succ_le_succ hn),
        meets_escape_iff, not_or, not_or]
  | case4 => exact iff_of_true rfl (not_meets_of_short (Nat.lt_succ_self 2))
  | case5 => exact iff_of_true rfl (not_meets_of_short (by decide))
  | case6 b rest hb hpercent ih =>
      obtain ⟨n, rfl⟩ := Nat.exists_eq_add_one.2 (Nat.lt_of_lt_of_le (Nat.succ_pos _) hn)
      rw [unescaped_cons hb hpercent, List.cons_eq_cons, and_iff_right rfl,
        ih (Nat.le_of_succ_le_succ hn), meets_cons_iff hb hpercent]

/-- Two bytes stand at the front, neither of them a delimiter. -/
def hasDigits : Bytes → Bool
  | high :: low :: _ => !isDelimiter high && !isDelimiter low
  | _ => false

/-- Each percent sign has two bytes behind it, neither of them a delimiter. -/
def EscapesWhole (bs : Bytes) : Prop :=
  ∀ tail, Byte.percent :: tail <:+ bs → hasDigits tail

theorem escapesWhole_nil : EscapesWhole [] := by
  intro tail htail
  cases List.suffix_nil.1 htail

theorem escapesWhole_cons_iff :
    EscapesWhole (b :: rest) ↔ (b = Byte.percent → hasDigits rest) ∧ EscapesWhole rest := by
  constructor
  · intro h
    refine ⟨?_, fun tail htail => h tail (htail.trans (List.suffix_cons b rest))⟩
    rintro rfl
    exact h rest (List.suffix_refl _)
  · rintro ⟨hhead, hrest⟩ tail htail
    obtain heq | htail := List.suffix_cons_iff.1 htail
    · obtain ⟨rfl, rfl⟩ := List.cons.inj heq
      exact hhead rfl
    · exact hrest tail htail

instance decidableEscapesWhole : (bs : Bytes) → Decidable (EscapesWhole bs)
  | [] => .isTrue escapesWhole_nil
  | _ :: rest =>
    have := decidableEscapesWhole rest
    decidable_of_iff' _ escapesWhole_cons_iff

/-- Up to its first delimiter a value of whole escapes stands for its text. -/
theorem denotes_unescaped {bs : Bytes} (h : EscapesWhole bs) :
    Denotes (unescaped nibble bs) (bs.take (reach bs)) := by
  fun_induction unescaped nibble bs with
  | case1 => exact .nil
  | case2 b rest hb =>
      rw [reach_of_delimiter hb]
      exact .nil
  | case3 _ high low tail ih =>
      obtain ⟨hdigits, hrest⟩ := escapesWhole_cons_iff.1 h
      have hdelimiter := hdigits rfl
      rw [hasDigits, Bool.and_eq_true, Bool.not_eq_true', Bool.not_eq_true'] at hdelimiter
      rw [reach_escape hdelimiter.1 hdelimiter.2]
      exact .escape (ih (escapesWhole_cons_iff.1 (escapesWhole_cons_iff.1 hrest).2).2)
  | case4 | case5 => cases (escapesWhole_cons_iff.1 h).1 rfl
  | case6 b rest hb hpercent ih =>
      rw [reach_cons (Bool.eq_false_iff.2 hb)]
      exact (denotes_cons_iff hb hpercent).2 ⟨_, rfl, ih (escapesWhole_cons_iff.1 h).2⟩

/-- A value of whole escapes is decoded up to its first delimiter. What is written is the documented text
unless a byte in place of a digit has the value of one it is not. -/
theorem decode_documented_iff (input : Bytes) (pos : Nat) (hwhole : EscapesWhole (input.drop pos))
    (hroom : (unescaped digitOrZero (input.drop pos)).length ≤ arena.remaining) :
    let d := decode arena (.within input pos)
    d.after = .within input (pos + reach (input.drop pos)) ∧
      d.arena.contents = arena.contents ++ unescaped nibble (input.drop pos) ∧
      (d.arena.contents = arena.contents ++ unescaped digitOrZero (input.drop pos) ↔
        ¬ Meets FalseDigit arena.remaining (input.drop pos)) := by
  intro d
  rw [length_unescaped digitOrZero nibble] at hroom
  have hd := decode_of_denotes (denotes_unescaped hwhole) (isDelimiter_of_reach (input.drop pos)) hroom pos
  have hreach : ((input.drop pos).take (reach (input.drop pos))).length = reach (input.drop pos) :=
    List.length_take_of_le List.findIdx_le_length
  rw [List.take_append_drop, hreach, List.drop_drop] at hd
  have hcontents : d.arena.contents = arena.contents ++ unescaped nibble (input.drop pos) := hd.1
  refine ⟨hd.2.2.1, hcontents, ?_⟩
  rw [hcontents, List.append_cancel_left_eq, unescaped_eq_iff hroom]

/-- The letter `z` is no hex digit and counts as zero. -/
theorem decode_documented_garbage :
    let input := Utf8.ofString "%4a+%zz&b"
    let arena := Arena.withCapacity 8
    (EscapesWhole input ∧ (unescaped digitOrZero input).length ≤ arena.remaining) ∧
      (decode arena (.within input 0)).arena.contents = [0x4A, 0x20, 0] := by
  intro input arena
  have hwhole : EscapesWhole input := by decide
  have hroom : (unescaped digitOrZero input).length ≤ arena.remaining := by decide +kernel
  have h := (decode_documented_iff input 0 hwhole hroom).2.1
  exact ⟨⟨hwhole, hroom⟩, h.trans (by decide +kernel)⟩

/-- The letter `q` is no hex digit either, but counts as one. -/
theorem not_documented_letter :
    let input := Utf8.ofString "%q0"
    let arena := Arena.withCapacity 8
    EscapesWhole input ∧ arena.contents ++ unescaped digitOrZero input = [0] ∧
      (decode arena (.within input 0)).arena.contents = [0x10] := by
  exact ⟨by decide, by decide, by decide⟩

end Intake.Request.Percent
