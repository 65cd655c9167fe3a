import Intake.Proofs.Text.Utf8

/-!
# Lists of code points

The first byte of a code point says how many bytes it has, and these bytes spell it. So no code point
begins like another one and goes on differently, and a row of encoded code points can be taken apart in
one way only. This needs nothing but the bit layout: surrogates and what lies above all characters have
bytes of their own too. Where all code points are characters the row is their UTF-8, and strict readers
give the characters back.
-/

namespace Intake.Utf8

variable {code other : Nat} {b : UInt8} {codes others : List Nat}

/-! ### One code point -/

/-- What the first byte of a code point says. -/
structure Lead where
  /-- How many bytes the code point has. -/
  width : Nat
  /-- The bits of the first byte that belong to the code point. -/
  bits : Nat

def Lead.ofByte (b : UInt8) : Lead :=
  if b < 0x80 then ⟨1, b.toNat⟩
  else if b < 0xE0 then ⟨2, b.toNat % 0x20⟩
  else if b < 0xF0 then ⟨3, b.toNat % 0x10⟩
  else ⟨4, b.toNat % 8⟩

/-- The code point that its bytes spell: the bits of the first one, and six of each other. -/
def spelled : Bytes → Nat
  | [] => 0
  | b :: rest => rest.foldl (fun code b => code * 0x40 + b.toNat % 0x40) (Lead.ofByte b).bits

theorem lead_of_one (h : b.toNat < 0x80) : Lead.ofByte b = ⟨1, b.toNat⟩ := by
  simp only [Lead.ofByte, UInt8.lt_iff_toNat_lt, UInt8.reduceToNat]
  rw [if_pos h]

theorem lead_of_two (hlow : 0x80 ≤ b.toNat) (hhigh : b.toNat < 0xE0) :
    Lead.ofByte b = ⟨2, b.toNat % 0x20⟩ := by
  simp only [Lead.ofByte, UInt8.lt_iff_toNat_lt, UInt8.reduceToNat]
  rw [if_neg (by omega), if_pos hhigh]

theorem lead_of_three (hlow : 0xE0 ≤ b.toNat) (hhigh : b.toNat < 0xF0) :
    Lead.ofByte b = ⟨3, b.toNat % 0x10⟩ := by
  simp only [Lead.ofByte, UInt8.lt_iff_toNat_lt, UInt8.reduceToNat]
  rw [if_neg (by omega), if_neg (by omega), if_pos hhigh]

theorem lead_of_four (h : 0xF0 ≤ b.toNat) : Lead.ofByte b = ⟨4, b.toNat % 8⟩ := by
  simp only [Lead.ofByte, UInt8.lt_iff_toNat_lt, UInt8.reduceToNat]
  rw [if_neg (by omega), if_neg (by omega), if_neg (by omega)]

/-- The first byte tells how many there are, and all of them tell the code point. -/
theorem exists_lead (h : code < 0x200000) :
    ∃ b rest, encode code = b :: rest ∧ (Lead.ofByte b).width = rest.length + 1 ∧
      spelled (b :: rest) = code := by
  by_cases hone : code < 0x80
  · have hb : (UInt8.ofNat code).toNat = code := by
      rw [UInt8.toNat_ofNat']
      omega
    have hlead := lead_of_one (b := .ofNat code) (by omega)
    refine ⟨_, [], if_pos hone, by rw [hlead]; rfl, ?_⟩
    simp only [spelled, List.foldl_nil, hlead, hb]
  by_cases htwo : code < 0x800
  · have hb : (UInt8.ofNat (0xC0 + code / 0x40)).toNat = 0xC0 + code / 0x40 := by
      rw [UInt8.toNat_ofNat']
      omega
    have hlead := lead_of_two (b := .ofNat (0xC0 + code / 0x40)) (by omega) (by omega)
    refine ⟨_, [_], by rw [encode, if_neg hone, if_pos htwo], by rw [hlead]; rfl, ?_⟩
    simp only [spelled, List.foldl_cons, List.foldl_nil, hlead, hb, toNat_continuation]
    omega
  by_cases hthree : code < 0x10000
  · have hb := toNat_lead_of_three hthree
    have hlead := lead_of_three (b := .ofNat (0xE0 + code / 0x1000)) (by omega) (by omega)
    refine ⟨_, [_, _], encode_of_three (Nat.le_of_not_lt htwo) hthree, by rw [hlead]; rfl, ?_⟩
    simp only [spelled, List.foldl_cons, List.foldl_nil, hlead, hb, toNat_continuation]
    omega
  · have hb : (UInt8.ofNat (0xF0 + code / 0x40000 % 8)).toNat = 0xF0 + code / 0x40000 % 8 := by
      rw [UInt8.toNat_ofNat']
      omega
    have hlead := lead_of_four (b := .ofNat (0xF0 + code / 0x40000 % 8)) (by omega)
    refine ⟨_, [_, _, _], by rw [encode, if_neg hone, if_neg htwo, if_neg hthree],
      by rw [hlead]; rfl, ?_⟩
    simp only [spelled, List.foldl_cons, List.foldl_nil, hlead, hb, toNat_continuation]
    omega

/-- Where two texts that begin with code points are the same, the code points are, and what follows. -/
theorem encode_append_inj {rest tail : Bytes} (hcode : code < 0x200000) (hother : other < 0x200000)
    (h : encode code ++ rest = encode other ++ tail) : code = other ∧ rest = tail := by
  obtain ⟨b, bytes, hbytes, hwidth, hspelled⟩ := exists_lead hcode
  obtain ⟨b', bytes', hbytes', hwidth', hspelled'⟩ := exists_lead hother
  rw [hbytes, hbytes'] at h
  obtain ⟨rfl, -⟩ := List.cons.inj h
  have hlength : (b :: bytes).length = (b :: bytes').length := hwidth.symm.trans hwidth'
  obtain ⟨hsame, hrest⟩ := List.append_inj h hlength
  refine ⟨?_, hrest⟩
  rw [← hspelled, ← hspelled', hsame]

theorem encode_ne_nil (h : code < 0x200000) : encode code ≠ [] := by
  obtain ⟨b, rest, hbytes, -⟩ := exists_lead h
  rw [hbytes]
  exact List.cons_ne_nil b rest

/-! ### Lists -/

/-- A row of code points can be taken apart in one way only. -/
theorem eq_of_flatMap_encode (hcodes : ∀ code ∈ codes, code < 0x200000)
    (hothers : ∀ code ∈ others, code < 0x200000) (h : codes.flatMap encode = others.flatMap encode) :
    codes = others := by
  induction codes generalizing others with
  | nil =>
      cases others with
      | nil => rfl
      | cons other others =>
          obtain ⟨hother, -⟩ := List.forall_mem_cons.1 hothers
          exact absurd (List.append_eq_nil_iff.1 h.symm).1 (encode_ne_nil hother)
  | cons code codes ih =>
      obtain ⟨hcode, hbehind⟩ := List.forall_mem_cons.1 hcodes
      cases others with
      | nil => exact absurd (List.append_eq_nil_iff.1 h).1 (encode_ne_nil hcode)
      | cons other others =>
          obtain ⟨hother, hbehind'⟩ := List.forall_mem_cons.1 hothers
          rw [List.flatMap_cons, List.flatMap_cons] at h
          obtain ⟨rfl, hrest⟩ := encode_append_inj hcode hother h
          rw [ih hbehind hbehind' hrest]

/-! ### Bits of a word -/

/-- A byte of a mark and of bits that the mark leaves free. -/
def marked (mark : UInt8) (bits : UInt32) : UInt8 := mark ||| bits.toUInt8

/-- The bytes of a code point as they are put together from the bits of a word. -/
def encodeWord (code : UInt32) : Bytes :=
  if code < 0x80 then [code.toUInt8]
  else if code < 0x800 then [marked 0xC0 (code >>> 6), marked 0x80 (code &&& 0x3F)]
  else if code < 0x10000 then
    [marked 0xE0 (code >>> 12), marked 0x80 (code >>> 6 &&& 0x3F), marked 0x80 (code &&& 0x3F)]
  else
    [marked 0xF0 (code >>> 18 &&& 0x07), marked 0x80 (code >>> 12 &&& 0x3F),
      marked 0x80 (code >>> 6 &&& 0x3F), marked 0x80 (code &&& 0x3F)]

theorem marked_eq {mark n : Nat} {bits : UInt32} (hbits : bits.toNat = n)
    (hor : mark ||| n = mark + n) : marked (.ofNat mark) bits = .ofNat (mark + n) := by
  rw [marked, ← hor, UInt8.ofNat_or]
  congr 1
  rw [← UInt8.toNat_inj, UInt32.toNat_toUInt8, hbits, UInt8.toNat_ofNat']

theorem marked_continuation (bits : UInt32) :
    marked 0x80 (bits &&& 0x3F) = .ofNat (0x80 + bits.toNat % 0x40) := by
  have hlow : (bits &&& 0x3F).toNat = bits.toNat % 0x40 := by
    rw [UInt32.toNat_and]
    exact Nat.and_two_pow_sub_one_eq_mod bits.toNat 6
  have hsix : bits.toNat % 0x40 < 0x40 := Nat.mod_lt _ (by decide)
  exact marked_eq hlow (Nat.two_pow_add_eq_or_of_lt (i := 6) hsix 2).symm

theorem toNat_shiftRight (code : UInt32) {places : UInt32} {unit : Nat} (hplaces : places.toNat < 32)
    (hunit : 1 <<< places.toNat = unit) : (code >>> places).toNat = code.toNat / unit := by
  rw [UInt32.toNat_shiftRight, Nat.mod_eq_of_lt hplaces, Nat.shiftRight_eq_div_pow, ← Nat.one_shiftLeft,
    hunit]

theorem encodeWord_eq (code : UInt32) : encodeWord code = encode code.toNat := by
  have hsix : (code >>> 6).toNat = code.toNat / 0x40 := toNat_shiftRight code (by decide) rfl
  have htwelve : (code >>> 12).toNat = code.toNat / 0x1000 := toNat_shiftRight code (by decide) rfl
  have heighteen : (code >>> 18).toNat = code.toNat / 0x40000 :=
    toNat_shiftRight code (by decide) rfl
  simp only [encodeWord, encode, UInt32.lt_iff_toNat_lt, UInt32.reduceToNat]
  by_cases hone : code.toNat < 0x80
  · have hbyte : code.toUInt8 = .ofNat code.toNat := by
      rw [← UInt8.toNat_inj, UInt32.toNat_toUInt8, UInt8.toNat_ofNat']
    rw [if_pos hone, if_pos hone, hbyte]
  by_cases htwo : code.toNat < 0x800
  · -- The mark `0xC0` is `6 * 0x20`, and the bits below `0x20` do not meet it. So it is with each mark.
    have hfive : code.toNat / 0x40 < 0x20 := by omega
    have hlead := marked_eq hsix (Nat.two_pow_add_eq_or_of_lt (i := 5) hfive 6).symm
    rw [if_neg hone, if_pos htwo, if_neg hone, if_pos htwo, marked_continuation]
    exact congrArg (· :: _) hlead
  by_cases hthree : code.toNat < 0x10000
  · have hfour : code.toNat / 0x1000 < 0x10 := by omega
    have hlead := marked_eq htwelve (Nat.two_pow_add_eq_or_of_lt (i := 4) hfour 14).symm
    rw [if_neg hone, if_neg htwo, if_pos hthree, if_neg hone, if_neg htwo, if_pos hthree,
      marked_continuation, marked_continuation, hsix]
    exact congrArg (· :: _) hlead
  · have htop : (code >>> 18 &&& 0x07).toNat = code.toNat / 0x40000 % 8 := by
      rw [UInt32.toNat_and, heighteen]
      exact Nat.and_two_pow_sub_one_eq_mod _ 3
    have hbits : code.toNat / 0x40000 % 8 < 8 := Nat.mod_lt _ (by decide)
    have hlead := marked_eq htop (Nat.two_pow_add_eq_or_of_lt (i := 3) hbits 30).symm
    rw [if_neg hone, if_neg htwo, if_neg hthree, if_neg hone, if_neg htwo, if_neg hthree,
      marked_continuation, marked_continuation, marked_continuation, hsix, htwelve]
    exact congrArg (· :: _) hlead

/-! ### Characters -/

theorem isScalar_toNat (c : Char) : IsScalar c.toNat := by
  rcases c.valid with hlow | ⟨hlow, hhigh⟩
  · exact .inl hlow
  · exact .inr ⟨hlow, hhigh⟩

/-- What is written for a character is its UTF-8. -/
theorem encode_toNat (c : Char) : encode c.toNat = String.utf8EncodeChar c := by
  have hscalar := isScalar_toNat c
  unfold IsScalar at hscalar
  unfold encode String.utf8EncodeChar
  have hval : c.val.toNat = c.toNat := rfl
  rw [hval]
  dsimp only
  generalize c.toNat = code at hscalar ⊢
  by_cases hone : code < 0x80
  · rw [if_pos hone, if_pos (by omega)]
  by_cases htwo : code < 0x800
  · have hbits : code / 64 % 0x20 = code / 0x40 := by omega
    rw [if_neg hone, if_pos htwo, if_neg (by omega), if_pos (by omega), hbits, Nat.add_comm 0xC0,
      Nat.add_comm 0x80]
  by_cases hthree : code < 0x10000
  · have hbits : code / 4096 % 0x10 = code / 0x1000 := by omega
    rw [if_neg hone, if_neg htwo, if_pos hthree, if_neg (by omega), if_neg (by omega),
      if_pos (by omega), hbits, Nat.add_comm 0xE0, Nat.add_comm 0x80, Nat.add_comm 0x80]
  · rw [if_neg hone, if_neg htwo, if_neg hthree, if_neg (by omega), if_neg (by omega),
      if_neg (by omega), Nat.add_comm 0xF0, Nat.add_comm 0x80, Nat.add_comm 0x80, Nat.add_comm 0x80]

theorem toByteArray_flatMap_encode (chars : List Char) :
    (chars.flatMap fun c => encode c.toNat).toByteArray = chars.utf8Encode := by
  simp only [encode_toNat]
  rfl

theorem scan_flatMap_encode (chars : List Char) :
    scan none (chars.flatMap fun c => encode c.toNat) = chars.map some := by
  induction chars with
  | nil => rfl
  | cons c chars ih =>
      rw [List.flatMap_cons, scan_encode (isScalar_toNat c), ih, Char.ofNat_toNat, List.map_cons]

theorem decode?_flatMap_encode (chars : List Char) :
    decode? (chars.flatMap fun c => encode c.toNat) = some chars := by
  rw [decode?, scan_flatMap_encode]
  induction chars with
  | nil => rfl
  | cons c chars ih =>
      rw [List.map_cons, List.mapM_cons, ih]
      rfl

/-- **The encoding is uniquely decodable.** The bytes are those that are put together from the bits of a
word. Rows of code points below `0x200000` that come to the same bytes are the same. A row of characters
comes to its UTF-8, from which it is read back. -/
theorem flatMap_encode_exact :
    (∀ code : UInt32, encodeWord code = encode code.toNat) ∧
    (∀ codes others : List Nat, (∀ code ∈ codes, code < 0x200000) →
      (∀ code ∈ others, code < 0x200000) →
        (codes.flatMap encode = others.flatMap encode ↔ codes = others)) ∧
    ∀ chars : List Char,
      let bytes := (chars.map Char.toNat).flatMap encode
      bytes.toByteArray = chars.utf8Encode ∧ bytes.toByteArray.utf8Decode? = some chars.toArray ∧
        decode? bytes = some chars := by
  refine ⟨encodeWord_eq, fun codes others hcodes hothers => ?_, fun chars => ?_⟩
  · exact ⟨eq_of_flatMap_encode hcodes hothers, congrArg _⟩
  · intro bytes
    have hbytes : bytes = chars.flatMap fun c => encode c.toNat := List.flatMap_map ..
    have harray : bytes.toByteArray = chars.utf8Encode := by
      rw [hbytes]
      exact toByteArray_flatMap_encode chars
    refine ⟨harray, ?_, ?_⟩
    · rw [harray]
      exact List.utf8Decode?_utf8Encode
    · rw [hbytes]
      exact decode?_flatMap_encode chars

/-- The two halves of a pair of surrogates do not come to the bytes of the character that they stand for,
also behind the last code point of all. -/
theorem flatMap_encode_exact_pair :
    let halves := [0x1FFFFF, 0xD83D, 0xDE00]
    let whole := [0x1FFFFF, 0x1F600]
    (∀ code ∈ halves, code < 0x200000) ∧ (∀ code ∈ whole, code < 0x200000) ∧
      halves.flatMap encode ≠ whole.flatMap encode ∧
      decode? (['a', '€', '😀'].map Char.toNat |>.flatMap encode) = some ['a', '€', '😀'] := by
  intro halves whole
  have hhalves : ∀ code ∈ halves, code < 0x200000 := by decide
  have hwhole : ∀ code ∈ whole, code < 0x200000 := by decide
  obtain ⟨-, hunique, hread⟩ := flatMap_encode_exact
  refine ⟨hhalves, hwhole, fun h => ?_, (hread _).2.2⟩
  exact absurd ((hunique halves whole hhalves hwhole).1 h) (by decide)

end Intake.Utf8
