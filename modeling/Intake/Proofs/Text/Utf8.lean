import Intake.Text.Utf8

/-!
# Reading what was encoded

The bytes of a code point are read back as that code point, wherever a character may begin, unless it is
a surrogate. Those of a surrogate are refused at their second byte, so nothing that follows them can
make up for it. A character that is open takes no byte below `0x80`: where the bytes are readable, such
a byte stands between characters.
-/

namespace Intake.Utf8

variable {pending : Option Pending} {b : UInt8} {rest : Bytes}

theorem scan_cons (pending : Option Pending) (b : UInt8) (rest : Bytes) :
    scan pending (b :: rest) = (step pending b).1 ++ scan (step pending b).2 rest := by
  cases pending <;> rfl

/-- The bytes complete the character that is open, if there is one, and are characters from there on. -/
def Readable (pending : Option Pending) (bs : Bytes) : Prop := none ∉ scan pending bs

theorem readable_cons_iff :
    Readable pending (b :: rest) ↔ none ∉ (step pending b).1 ∧ Readable (step pending b).2 rest := by
  rw [Readable, scan_cons, List.mem_append, not_or]
  rfl

theorem isSome_decode?_iff {bs : Bytes} : (decode? bs).isSome ↔ Readable none bs := by
  unfold decode? Readable
  induction scan none bs with
  | nil => simp
  | cons char chars ih =>
      cases char with
      | none => simp
      | some char =>
          rw [List.mapM_cons]
          cases hrest : chars.mapM id <;> simp_all

/-! ### ASCII -/

/-- The byte that is due is no ASCII. -/
def Due (pending : Option Pending) : Prop := ∀ p ∈ pending, 0x80 ≤ p.low

theorem due_none : Due none := fun _ h => nomatch h

theorem due_first (b : UInt8) : Due (first b).2 := by
  intro p hp
  unfold first at hp
  repeat' split at hp
  all_goals cases hp
  all_goals
    dsimp only
    decide

theorem due_step (pending : Option Pending) (b : UInt8) : Due (step pending b).2 := by
  unfold step
  split
  · exact due_first b
  split
  · dsimp only
    split
    · exact due_none
    · intro p hp
      cases hp
      exact UInt8.le_refl 0x80
  · exact due_first b

theorem step_none_of_ascii (hb : b < 0x80) : step none b = ([some (.ofNat b.toNat)], none) :=
  if_pos hb

theorem eq_none_of_ascii (hdue : Due pending) (hb : b < 0x80) (h : Readable pending (b :: rest)) :
    pending = none := by
  cases pending with
  | none => rfl
  | some p =>
      have hlow : ¬ (p.low ≤ b ∧ b ≤ p.high) := fun hin =>
        absurd (Std.lt_of_le_of_lt (Std.le_trans (hdue p rfl) hin.1) hb) (Std.lt_irrefl)
      rw [readable_cons_iff, step, if_neg hlow] at h
      exact absurd (List.mem_cons_self ..) h.1

theorem readable_ascii_iff (hb : b < 0x80) : Readable none (b :: rest) ↔ Readable none rest := by
  rw [readable_cons_iff, step_none_of_ascii hb]
  simp

/-! ### Code points -/

/-- A code point that is no surrogate. -/
def IsScalar (code : Nat) : Prop := code < 0xD800 ∨ 0xE000 ≤ code ∧ code < 0x110000

theorem scan_none_cons {found : List (Option Char)} {p : Option Pending} (h : first b = (found, p)) :
    scan none (b :: rest) = found ++ scan p rest := by
  rw [scan_cons, step, h]

/-- A byte that continues the open character and does not complete it. -/
theorem scan_continue {left code : Nat} {low high : UInt8} (hb : low ≤ b ∧ b ≤ high) :
    scan (some ⟨left + 2, low, high, code⟩) (b :: rest) =
      scan (some ⟨left + 1, 0x80, 0xBF, code * 0x40 + b.toNat % 0x40⟩) rest := by
  rw [scan_cons, step, if_pos hb]
  rfl

theorem scan_complete {code : Nat} {low high : UInt8} (hb : low ≤ b ∧ b ≤ high) :
    scan (some ⟨1, low, high, code⟩) (b :: rest) =
      some (.ofNat (code * 0x40 + b.toNat % 0x40)) :: scan none rest := by
  rw [scan_cons, step, if_pos hb]
  rfl

theorem toNat_continuation (n : Nat) : (UInt8.ofNat (0x80 + n % 0x40)).toNat = 0x80 + n % 0x40 := by
  rw [UInt8.toNat_ofNat']
  omega

theorem continuation_mem (n : Nat) :
    (0x80 : UInt8) ≤ .ofNat (0x80 + n % 0x40) ∧ .ofNat (0x80 + n % 0x40) ≤ (0xBF : UInt8) := by
  simp only [UInt8.le_iff_toNat_le, toNat_continuation, UInt8.reduceToNat]
  omega

theorem first_of_two (hlow : 0xC2 ≤ b.toNat) (hhigh : b.toNat < 0xE0) :
    first b = ([], some ⟨1, 0x80, 0xBF, b.toNat % 0x20⟩) := by
  simp only [first, UInt8.lt_iff_toNat_lt, UInt8.reduceToNat]
  rw [if_neg (by omega), if_neg (by omega), if_pos hhigh]

theorem first_of_three (hlow : 0xE0 ≤ b.toNat) (hhigh : b.toNat < 0xF0) :
    first b = ([], some ⟨2, if b = 0xE0 then 0xA0 else 0x80, if b = 0xED then 0x9F else 0xBF,
      b.toNat % 0x10⟩) := by
  simp only [first, UInt8.lt_iff_toNat_lt, UInt8.reduceToNat]
  rw [if_neg (by omega), if_neg (by omega), if_neg (by omega), if_pos hhigh]

theorem first_of_four (hlow : 0xF0 ≤ b.toNat) (hhigh : b.toNat < 0xF5) :
    first b = ([], some ⟨3, if b = 0xF0 then 0x90 else 0x80, if b = 0xF4 then 0x8F else 0xBF,
      b.toNat % 8⟩) := by
  simp only [first, UInt8.lt_iff_toNat_lt, UInt8.reduceToNat]
  rw [if_neg (by omega), if_neg (by omega), if_neg (by omega), if_neg (by omega), if_pos hhigh]

theorem scan_two {code : Nat} (hlow : 0x80 ≤ code) (hhigh : code < 0x800) :
    scan none (encode code ++ rest) = some (.ofNat code) :: scan none rest := by
  have hb : (UInt8.ofNat (0xC0 + code / 0x40)).toNat = 0xC0 + code / 0x40 := by
    rw [UInt8.toNat_ofNat']
    omega
  have hfirst := first_of_two (b := .ofNat (0xC0 + code / 0x40)) (by omega) (by omega)
  rw [encode, if_neg (by omega), if_pos hhigh, List.cons_append, List.cons_append, List.nil_append,
    scan_none_cons hfirst, List.nil_append, scan_complete (continuation_mem code), toNat_continuation, hb]
  congr 3
  omega

/-- The range of the second byte leaves out the long forms, and just the surrogates. -/
theorem second_of_three_iff {code : Nat} {lead second : UInt8} (hlow : 0x800 ≤ code)
    (hhigh : code < 0x10000) (hlead : lead.toNat = 0xE0 + code / 0x1000)
    (hsecond : second.toNat = 0x80 + code / 0x40 % 0x40) :
    ((if lead = 0xE0 then 0xA0 else 0x80) ≤ second ∧
      second ≤ (if lead = 0xED then 0x9F else 0xBF)) ↔ IsScalar code := by
  have hlong : lead = 0xE0 ↔ code / 0x1000 = 0 := by
    rw [← UInt8.toNat_inj, hlead]
    simp
  have hsurrogate : lead = 0xED ↔ code / 0x1000 = 0xD := by
    rw [← UInt8.toNat_inj, hlead]
    simp only [UInt8.reduceToNat]
    omega
  simp only [hlong, hsurrogate, IsScalar, UInt8.le_iff_toNat_le, hsecond]
  split <;> split
  all_goals
    simp only [UInt8.reduceToNat]
    omega

theorem toNat_lead_of_three {code : Nat} (h : code < 0x10000) :
    (UInt8.ofNat (0xE0 + code / 0x1000)).toNat = 0xE0 + code / 0x1000 := by
  rw [UInt8.toNat_ofNat']
  omega

theorem encode_of_three {code : Nat} (hlow : 0x800 ≤ code) (hhigh : code < 0x10000) :
    encode code = [.ofNat (0xE0 + code / 0x1000), .ofNat (0x80 + code / 0x40 % 0x40),
      .ofNat (0x80 + code % 0x40)] := by
  rw [encode, if_neg (by omega), if_neg (by omega), if_pos hhigh]

theorem scan_three {code : Nat} (hlow : 0x800 ≤ code) (hhigh : code < 0x10000)
    (hscalar : IsScalar code) :
    scan none (encode code ++ rest) = some (.ofNat code) :: scan none rest := by
  have hlead := toNat_lead_of_three hhigh
  have hsecond := toNat_continuation (code / 0x40)
  have hfirst := first_of_three (b := .ofNat (0xE0 + code / 0x1000)) (by omega) (by omega)
  rw [encode_of_three hlow hhigh, List.cons_append, List.cons_append, List.cons_append, List.nil_append,
    scan_none_cons hfirst, List.nil_append,
    scan_continue ((second_of_three_iff hlow hhigh hlead hsecond).2 hscalar),
    scan_complete (continuation_mem code), hlead, hsecond, toNat_continuation]
  congr 3
  omega

/-- The range of the second byte leaves out the long forms and what lies above all code points. -/
theorem second_of_four {code : Nat} {lead second : UInt8} (hlow : 0x10000 ≤ code)
    (hhigh : code < 0x110000) (hlead : lead.toNat = 0xF0 + code / 0x40000 % 8)
    (hsecond : second.toNat = 0x80 + code / 0x1000 % 0x40) :
    (if lead = 0xF0 then 0x90 else 0x80) ≤ second ∧ second ≤ (if lead = 0xF4 then 0x8F else 0xBF) := by
  have hlong : lead = 0xF0 ↔ code / 0x40000 = 0 := by
    rw [← UInt8.toNat_inj, hlead]
    simp only [UInt8.reduceToNat]
    omega
  have habove : lead = 0xF4 ↔ code / 0x40000 = 4 := by
    rw [← UInt8.toNat_inj, hlead]
    simp only [UInt8.reduceToNat]
    omega
  simp only [hlong, habove, UInt8.le_iff_toNat_le, hsecond]
  split <;> split
  all_goals
    simp only [UInt8.reduceToNat]
    omega

theorem scan_four {code : Nat} (hlow : 0x10000 ≤ code) (hhigh : code < 0x110000) :
    scan none (encode code ++ rest) = some (.ofNat code) :: scan none rest := by
  have hlead : (UInt8.ofNat (0xF0 + code / 0x40000 % 8)).toNat = 0xF0 + code / 0x40000 % 8 := by
    rw [UInt8.toNat_ofNat']
    omega
  have hsecond := toNat_continuation (code / 0x1000)
  have hfirst := first_of_four (b := .ofNat (0xF0 + code / 0x40000 % 8)) (by omega) (by omega)
  rw [encode, if_neg (by omega), if_neg (by omega), if_neg (by omega), List.cons_append, List.cons_append,
    List.cons_append, List.cons_append, List.nil_append, scan_none_cons hfirst, List.nil_append,
    scan_continue (second_of_four hlow hhigh hlead hsecond),
    scan_continue (continuation_mem (code / 0x40)), scan_complete (continuation_mem code),
    hlead, hsecond, toNat_continuation, toNat_continuation]
  congr 3
  omega

/-- What was encoded is read back, in front of anything. -/
theorem scan_encode {code : Nat} (hscalar : IsScalar code) (rest : Bytes) :
    scan none (encode code ++ rest) = some (.ofNat code) :: scan none rest := by
  unfold IsScalar at hscalar
  by_cases hone : code < 0x80
  · have hb : (UInt8.ofNat code).toNat = code := by
      rw [UInt8.toNat_ofNat']
      omega
    have hascii : UInt8.ofNat code < 0x80 := UInt8.lt_iff_toNat_lt.2 (by rw [hb]; exact hone)
    rw [encode, if_pos hone, List.singleton_append, scan_cons, step_none_of_ascii hascii, hb]
    rfl
  by_cases htwo : code < 0x800
  · exact scan_two (Nat.le_of_not_lt hone) htwo
  by_cases hthree : code < 0x10000
  · exact scan_three (Nat.le_of_not_lt htwo) hthree hscalar
  · exact scan_four (Nat.le_of_not_lt hthree) (by omega)

theorem readable_encode_iff {code : Nat} (hscalar : IsScalar code) :
    Readable none (encode code ++ rest) ↔ Readable none rest := by
  rw [Readable, scan_encode hscalar, List.mem_cons, not_or]
  exact and_iff_right (Option.some_ne_none _).symm

/-- Nothing that follows a surrogate makes it a character. -/
theorem not_readable_surrogate {code : Nat} (hlow : 0xD800 ≤ code) (hhigh : code < 0xE000)
    (rest : Bytes) : ¬ Readable none (encode code ++ rest) := by
  have hlow' : 0x800 ≤ code := Nat.le_trans (by decide) hlow
  have hhigh' : code < 0x10000 := Nat.lt_of_lt_of_le hhigh (by decide)
  have hlead := toNat_lead_of_three hhigh'
  have hsecond := toNat_continuation (code / 0x40)
  have hfirst := first_of_three (b := .ofNat (0xE0 + code / 0x1000)) (by omega) (by omega)
  have hrange := second_of_three_iff hlow' hhigh' hlead hsecond
  have hscalar : ¬ IsScalar code := by
    unfold IsScalar
    omega
  rw [encode_of_three hlow' hhigh', List.cons_append, List.cons_append, readable_cons_iff, step, hfirst,
    readable_cons_iff, step, if_neg fun hin => hscalar (hrange.1 hin)]
  exact fun h => h.2.1 (List.mem_cons_self ..)

end Intake.Utf8
