import Intake.Proofs.Record.Room

/-!
# The numbers of a record

Where a number is expected its text is whitespace, a sign or none, and digits as far as they go. Either the
field gets the number that the digits spell or the record is refused, so no number is changed to make it
fit. What decides is first whether anything stands behind the digits, then whether there are digits, and
then whether the number is in the range of the field. How far out of range it is does not matter.
-/

namespace Intake

namespace Record

/-! ### Signs and digits -/

/-- What a number starts with. -/
inductive Sign where
  | none
  | plus
  | minus
deriving DecidableEq

namespace Sign

def bytes : Sign → Bytes
  | none => []
  | plus => [Byte.plus]
  | minus => [Byte.minus]

def isNegative : Sign → Bool
  | minus => true
  | none | plus => false

def apply (sign : Sign) (magnitude : Nat) : Int :=
  if sign.isNegative then -(magnitude : Int) else magnitude

end Sign

/-- The text begins like a number: with whitespace, a sign or none, and digits as far as they go, of which
there need not be any. -/
structure Numeric (gap : Bytes) (sign : Sign) (digits rest bs : Bytes) : Prop where
  eq : bs = gap ++ (sign.bytes ++ (digits ++ rest))
  isSpace : Gap gap
  isDigit : ∀ b ∈ digits, Byte.isDigit b
  stops : ∀ b ∈ rest.head?, Byte.isDigit b = false
  /-- Where neither a sign nor a digit is named, neither is there. -/
  bare : sign = .none → digits = [] →
    ∀ b ∈ rest.head?, Byte.isSpace b = false ∧ b ≠ Byte.plus ∧ b ≠ Byte.minus

section Reading

variable {gap front back digits rest : Bytes} {sign : Sign} {c : Cursor} {low high : Int}

theorem Numeric.advance (h : Numeric (front ++ back) sign digits rest c.rest) :
    Numeric back sign digits rest (c.advance front.length).rest where
  eq := Cursor.rest_advance (h.eq.trans (List.append_assoc ..))
  isSpace b hb := h.isSpace b (List.mem_append_right front hb)
  isDigit := h.isDigit
  stops := h.stops
  bare := h.bare

theorem Numeric.skipSpace (h : Numeric gap sign digits rest c.rest) :
    c.skipSpace = c.advance gap.length := by
  refine Cursor.skipWhile_of_stops h.isSpace (fun b hb => ?_) h.eq
  cases sign with
  | none =>
      cases digits with
      | nil => exact (h.bare rfl rfl b hb).1
      | cons digit digits =>
          cases hb
          exact isSpace_of_isDigit (h.isDigit b List.mem_cons_self)
  | plus =>
      cases hb
      rfl
  | minus =>
      cases hb
      rfl

theorem Numeric.sign_eq (h : Numeric [] sign digits rest c.rest) :
    Record.sign c = (sign.isNegative, c.advance sign.bytes.length) := by
  have hc : c.rest = sign.bytes ++ (digits ++ rest) := h.eq
  cases sign with
  | none =>
      cases hhead : digits ++ rest with
      | nil =>
          simp only [Record.sign, hc, hhead, Sign.bytes, List.append_nil]
          rfl
      | cons b tail =>
          have hb : b ≠ Byte.plus ∧ b ≠ Byte.minus := by
            cases digits with
            | nil => exact (h.bare rfl rfl b (by rw [← List.nil_append rest, hhead]; rfl)).2
            | cons digit digits =>
                cases hhead
                have hdigit := h.isDigit b List.mem_cons_self
                constructor <;> rintro rfl <;> exact absurd hdigit (by decide)
          simp only [Record.sign, hc, hhead, Sign.bytes, List.nil_append, if_neg hb.1, if_neg hb.2]
          rfl
  | plus =>
      simp only [Record.sign, hc]
      rfl
  | minus =>
      simp only [Record.sign, hc]
      rfl

/-- What is read where a text begins like a number. -/
theorem integer_of_numeric (h : Numeric gap sign digits rest c.rest) : integer c =
    if rest = [] then .error (.incomplete 1)
    else if digits = [] then .error (.fault (.invalidNumber (c.pos + gap.length)))
    else if Decimal.value digits < Decimal.wideBound then
      .ok (sign.apply (Decimal.value digits),
        c.advance (gap.length + sign.bytes.length + digits.length))
    else .error (.fault (.numberOverflow (c.pos + gap.length))) := by
  have hgap : Numeric (gap ++ []) sign digits rest c.rest := (List.append_nil gap).symm ▸ h
  have hsign := hgap.advance.sign_eq
  have hfirst : ((c.advance gap.length).advance sign.bytes.length).rest = digits ++ rest :=
    Cursor.rest_advance hgap.advance.eq
  have hdigits := Cursor.takeWhile_append_of_stops h.isDigit h.stops
  have hafter := Cursor.skipWhile_of_stops h.isDigit h.stops hfirst
  simp only [integer, h.skipSpace, hsign, hfirst, hdigits, hafter, Cursor.rest_advance hfirst,
    Decimal.bounded?_eq (show 0 < Decimal.wideBound by decide), Cursor.advance_pos]
  split
  · rfl
  split
  · rfl
  by_cases hwide : Decimal.value digits < Decimal.wideBound
  · simp only [if_pos hwide, Cursor.advance_advance, Nat.add_assoc]
    rfl
  · simp only [if_neg hwide]

/-- A number that is not in a range of at most 64 bits is refused, by whichever of the two bounds. -/
theorem integerIn_of_numeric (hlow : -(Decimal.wideBound : Int) < low)
    (hhigh : high < Decimal.wideBound) (h : Numeric gap sign digits rest c.rest) (hrest : rest ≠ [])
    (hdigits : digits ≠ []) :
    let v := sign.apply (Decimal.value digits)
    (low ≤ v ∧ v ≤ high → integerIn low high c =
      .ok (v, c.advance (gap.length + sign.bytes.length + digits.length))) ∧
    (¬ (low ≤ v ∧ v ≤ high) → ∃ offset, c.pos ≤ offset ∧ offset ≤ c.pos + gap.length ∧
      integerIn low high c = .error (.fault (.numberOverflow offset))) := by
  intro v
  have hinteger := integer_of_numeric h
  rw [if_neg hrest, if_neg hdigits] at hinteger
  by_cases hwide : Decimal.value digits < Decimal.wideBound
  · rw [if_pos hwide] at hinteger
    constructor
    · intro hin
      simp only [integerIn, hinteger]
      exact if_pos hin
    · intro hout
      refine ⟨c.pos, Nat.le_refl _, Nat.le_add_right .., ?_⟩
      simp only [integerIn, hinteger]
      exact if_neg hout
  · have hout : ¬ (low ≤ v ∧ v ≤ high) := by
      simp only [v, Sign.apply]
      split <;> omega
    rw [if_neg hwide] at hinteger
    refine ⟨fun hin => absurd hin hout, fun _ => ⟨_, Nat.le_add_right .., Nat.le_refl _, ?_⟩⟩
    simp only [integerIn, hinteger]

end Reading

section Filling

variable {σ : Type} {s : σ} {c : Cursor}

/-- What becomes of a state that a number is put into once it is read. -/
def filled (put : Int → σ → σ) (s : σ) : Read Int → Reply σ Unit
  | .ok (value, d) => .ok () (put value s) d
  | .error why => .stop why s

theorem run_timestamp (put : Int → σ → σ) :
    (Scan.timestamp >>= fun t => Scan.modify (put t)).run s c =
      filled put s (integerIn (-Decimal.signedBound) (Decimal.signedBound - 1) c) := by
  simp only [Scan.timestamp, Scan.run_bind, Scan.run_read, timestamp]
  cases integerIn (-Decimal.signedBound) (Decimal.signedBound - 1) c <;> rfl

theorem run_identifier (put : Nat → σ → σ) :
    (Scan.identifier >>= fun n => Scan.modify (put n)).run s c =
      filled (fun v => put v.toNat) s (integerIn 0 (Decimal.unsignedBound - 1) c) := by
  simp only [Scan.identifier, Scan.run_bind, Scan.run_read, identifier]
  cases integerIn 0 (Decimal.unsignedBound - 1) c <;> rfl

end Filling

/-! ### Where numbers are expected -/

/-- What has a number for a value: three fields of a record, the ends of a premium time and the members of
a like. -/
inductive NumberField where
  | id
  | birth
  | joined
  | premium (part : End)
  | likeId
  | likeTimestamp

namespace NumberField

/-- What the number is kept in while it is read. -/
def State : NumberField → Type
  | id | birth | joined => Account
  | premium _ => Premium
  | likeId | likeTimestamp => Scan.PartialLike

/-- Reads the value of the member, from behind the colon. -/
def scan (options : Options) : (field : NumberField) → Scan field.State Unit
  | id => Scan.member options (Field.key .id)
  | birth => Scan.member options (Field.key .birth)
  | joined => Scan.member options (Field.key .joined)
  | premium part => Scan.premiumMember options part.key
  | likeId => Scan.likeMember options Scan.likeIdKey
  | likeTimestamp => Scan.likeMember options Scan.likeTimestampKey

/-- The least number that the field can hold. -/
def low : NumberField → Int
  | id | likeId => 0
  | birth | joined | premium _ | likeTimestamp => -Decimal.signedBound

/-- The greatest number that the field can hold. -/
def high : NumberField → Int
  | id | likeId => Decimal.unsignedBound - 1
  | birth | joined | premium _ | likeTimestamp => Decimal.signedBound - 1

theorem narrow (field : NumberField) :
    -(Decimal.wideBound : Int) < field.low ∧ field.high < Decimal.wideBound := by
  cases field <;> simp only [low, high] <;> decide

def put (value : Int) : (field : NumberField) → field.State → field.State
  | id, account => { account with id := value.toNat }
  | birth, account => { account with birth := value }
  | joined, account => { account with joined := value }
  | premium .start, time => { time with start := value }
  | premium .finish, time => { time with finish := value }
  | likeId, like => { like with id := some value.toNat }
  | likeTimestamp, like => { like with timestamp := some value }

/-- While a record is read, the value of the member begins. -/
def Begins (options : Options) (s : Account) (c : Cursor) :
    (field : NumberField) → field.State → Cursor → Prop
  | id => Scan.MemberBegins (Scan.member options) s c (Field.key .id)
  | birth => Scan.MemberBegins (Scan.member options) s c (Field.key .birth)
  | joined => Scan.MemberBegins (Scan.member options) s c (Field.key .joined)
  | premium part => fun t d => ∃ s₁ c₁,
      Scan.MemberBegins (Scan.member options) s c (Field.key .premium) s₁ c₁ ∧
      Scan.MemberBegins (Scan.premiumMember options) .absent c₁.skipSpace part.key t d
  | likeId => fun t d => ∃ s₁ c₁ s₂ c₂,
      Scan.MemberBegins (Scan.member options) s c (Field.key .likes) s₁ c₁ ∧
      Scan.ElementBegins (Scan.like options) s₁.clearLikes c₁.skipSpace s₂ c₂ ∧
      Scan.MemberBegins (Scan.likeMember options) {} c₂ Scan.likeIdKey t d
  | likeTimestamp => fun t d => ∃ s₁ c₁ s₂ c₂,
      Scan.MemberBegins (Scan.member options) s c (Field.key .likes) s₁ c₁ ∧
      Scan.ElementBegins (Scan.like options) s₁.clearLikes c₁.skipSpace s₂ c₂ ∧
      Scan.MemberBegins (Scan.likeMember options) {} c₂ Scan.likeTimestampKey t d

/-- A number is read from the colon on or from behind the whitespace that follows it. -/
theorem exists_run_eq (options : Options) (field : NumberField) (s : field.State) {c : Cursor}
    {gap digits rest : Bytes} {sign : Sign} (h : Numeric gap sign digits rest c.rest) :
    ∃ front back, gap = front ++ back ∧ (field.scan options).run s c =
      filled field.put s (integerIn field.low field.high (c.advance front.length)) := by
  have hvalue (field : Field) (account : Account) :
      (Scan.member options field.key).run account c =
        (Scan.value options field).run account (c.advance gap.length) := by
    rw [Scan.member, Scan.ofName?_key, ← h.skipSpace]
    rfl
  have hfront : gap = gap ++ [] := (List.append_nil gap).symm
  cases field with
  | id =>
      refine ⟨gap, [], hfront, (hvalue .id s).trans ?_⟩
      exact run_identifier fun id (account : Account) => { account with id }
  | birth =>
      refine ⟨gap, [], hfront, (hvalue .birth s).trans ?_⟩
      exact run_timestamp fun birth (account : Account) => { account with birth }
  | joined =>
      refine ⟨gap, [], hfront, (hvalue .joined s).trans ?_⟩
      exact run_timestamp fun joined (account : Account) => { account with joined }
  | premium part =>
      refine ⟨[], gap, rfl, ?_⟩
      cases part with
      | start => exact run_timestamp fun start (time : Premium) => { time with start }
      | finish => exact run_timestamp fun finish (time : Premium) => { time with finish }
  | likeId =>
      refine ⟨[], gap, rfl, ?_⟩
      exact run_identifier fun id (like : Scan.PartialLike) => { like with id := some id }
  | likeTimestamp =>
      refine ⟨[], gap, rfl, ?_⟩
      exact run_timestamp fun t (like : Scan.PartialLike) => { like with timestamp := some t }

end NumberField

/-! ### Giving up -/

namespace Scan

variable {σ τ : Type} {item : Scan σ Unit} {s s' t : σ} {c c' : Cursor} {b close : UInt8} {why : Stop}

theorem ItemBegins.runItems_stop (h : ItemBegins item s c s' c') (hstop : item.run s' c' = .stop why t) :
    runItems close item s c = .stop why t := by
  induction h with
  | first s c => rw [runItems_eq, hstop]
  | next hitem hcomma _ ih =>
      rw [runItems_eq, hitem]
      simp only [hcomma, if_true]
      exact ih hstop

theorem ItemBegins.starts (h : ItemBegins item s c s' c')
    (hitem : ∀ {s u s' c d}, item.run s c = .ok u s' d → ∃ rest, c.skipSpace.rest = b :: rest)
    (hlast : ∃ rest, c'.skipSpace.rest = b :: rest) : ∃ rest, c.skipSpace.rest = b :: rest := by
  cases h with
  | first => exact hlast
  | next hrun => exact hitem hrun

/-- What is behind an opening bracket ends where an item gives up, as long as no item starts with the
closing bracket. -/
theorem ItemBegins.opened_stop (bracket : Bracket) {d : Cursor} {u : Unit}
    (hopen : Record.expect bracket.opening c = .ok (u, d)) (h : ItemBegins item s d.skipSpace s' c')
    (hitem : ∀ {s u s' c d}, item.run s c = .ok u s' d → ∃ rest, c.skipSpace.rest = b :: rest)
    (hlast : ∃ rest, c'.skipSpace.rest = b :: rest) (hb : b ≠ bracket.closing)
    (hstop : item.run s' c' = .stop why t) :
    (expect bracket.opening >>= fun _ => list bracket.closing item).run s c = .stop why t := by
  have hc := rest_of_expect hopen
  rw [expect_of_cons hc, if_pos rfl] at hopen
  cases hopen
  obtain ⟨rest, hrest⟩ := h.starts hitem hlast
  rw [Cursor.skipSpace_skipSpace] at hrest
  rw [opened_run hc]
  simp only [runList, hrest, if_neg hb]
  exact h.runItems_stop hstop

theorem MemberBegins.stop {member : Bytes → Scan σ Unit} {key : Bytes}
    (h : MemberBegins member s c key s' c') (hstop : (member key).run s' c' = .stop why t) :
    (members member).run s c = .stop why t := by
  obtain ⟨hopen, h, hkey, hcolon⟩ := h
  have hkeyed {s u s' c d} (hrun : (keyed member).run s c = .ok u s' d) :
      ∃ rest, c.skipSpace.rest = Byte.quote :: rest := by
    cases hraw : Record.rawString c with
    | ok _ => exact ⟨_, (rest_of_rawString hraw).1⟩
    | error _ =>
        simp only [keyed, rawString, read, run_bind, hraw] at hrun
        cases hrun
  refine ItemBegins.opened_stop .brace hopen h hkeyed ⟨_, (rest_of_rawString hkey).1⟩ (by decide) ?_
  simp only [rawString, expect, read, run_bind, hkey, hcolon]
  exact hstop

theorem like_run_stop {options : Options} {s : Account} {t : PartialLike}
    (h : (members (likeMember options)).run {} c = .stop why t) :
    (like options).run s c = .stop why s := by
  simp only [like, position, run_bind, run_withState, h]

/-- A member of a like that is being read gives up for all of the likes. -/
theorem ElementBegins.like_stop {options : Options} {s s' : Account} {t t' : PartialLike}
    {d : Cursor} {key : Bytes}
    (h : ElementBegins (like options) s c s' c') (hmember : MemberBegins (likeMember options) {} c' key t d)
    (hstop : (likeMember options key).run t d = .stop why t') :
    (elements (like options)).run s c = .stop why s' := by
  obtain ⟨hopen, h⟩ := h
  have hlike {s u s' c d} (hrun : (like options).run s c = .ok u s' d) :
      ∃ rest, c.skipSpace.rest = Byte.openBrace :: rest := by
    cases hexpect : Record.expect Byte.openBrace c with
    | ok _ => exact ⟨_, rest_of_expect hexpect⟩
    | error why =>
        have hmembers : (members (likeMember options)).run {} c = .stop why {} := by
          simp only [members, expect, read, run_bind, hexpect]
        rw [like_run_stop hmembers] at hrun
        cases hrun
  have hlast : ∃ rest, c'.skipSpace.rest = Byte.openBrace :: rest := by
    obtain ⟨hbrace, -⟩ := hmember
    exact ⟨_, rest_of_expect hbrace⟩
  exact h.opened_stop .square hopen hlike hlast (by decide)
    (like_run_stop (hmember.stop hstop))

end Scan

namespace NumberField

theorem record_stop_of_value {options : Options} {s s₁ s' : Account} {c c₁ : Cursor} {why : Stop}
    {field : Field} (h : Scan.MemberBegins (Scan.member options) s c field.key s₁ c₁)
    (hstop : (Scan.value options field).run s₁ c₁.skipSpace = .stop why s') :
    (Scan.record options).run s c = .stop why s' := by
  refine h.stop ?_
  rw [Scan.member, Scan.ofName?_key]
  exact hstop

theorem record_stop {options : Options} {s : Account} {c c' : Cursor} {why : Stop} {field : NumberField}
    {t t' : field.State} (hbegins : field.Begins options s c t c')
    (hstop : (field.scan options).run t c' = .stop why t') :
    ∃ s', (Scan.record options).run s c = .stop why s' := by
  cases field with
  | id | birth | joined => exact ⟨_, Scan.MemberBegins.stop hbegins hstop⟩
  | premium part =>
      obtain ⟨s₁, c₁, hpremium, hpart⟩ := hbegins
      have hvalue : (Scan.value options .premium).run s₁ c₁.skipSpace = .stop why s₁ := by
        simp only [Scan.value, Scan.premium, Scan.run_bind, Scan.run_withState, hpart.stop hstop]
      exact ⟨s₁, record_stop_of_value hpremium hvalue⟩
  | likeId | likeTimestamp =>
      obtain ⟨s₁, c₁, s₂, c₂, hlikes, helement, hpart⟩ := hbegins
      exact ⟨s₂, record_stop_of_value hlikes (helement.like_stop hpart hstop)⟩

end NumberField

/-! ### Every number of a record -/

/-- **Numbers are exact.** Wherever a record has a number, the input that ends with it is too short, and a
number without digits is none. Otherwise it is what its sign and its digits spell, and the field gets just
that if it can hold it. If it cannot the number is out of range, however many digits there are and however
many of them are zeros in front. -/
theorem number_exact (options : Options) (account : Account) (input : Bytes) (field : NumberField)
    {s : field.State} {c : Cursor} {gap digits rest : Bytes} {sign : Sign}
    (hbegins : field.Begins options (emptied account) (.start input) s c)
    (h : Numeric gap sign digits rest c.rest) :
    let v := sign.apply (Decimal.value digits)
    let result := (decode options account input).result
    (rest = [] → result = .ok (.incomplete 1)) ∧
      (rest ≠ [] → digits = [] → result = .error (.invalidNumber (c.pos + gap.length))) ∧
      (rest ≠ [] → digits ≠ [] →
        (∀ t d, (field.scan options).run s c = .ok () t d ↔
          (field.low ≤ v ∧ v ≤ field.high) ∧ t = field.put v s ∧
            d = c.advance (gap.length + sign.bytes.length + digits.length)) ∧
        (¬ (field.low ≤ v ∧ v ≤ field.high) → ∃ offset, c.pos ≤ offset ∧
          offset ≤ c.pos + gap.length ∧ result = .error (.numberOverflow offset))) := by
  intro v result
  obtain ⟨front, back, rfl, hrun⟩ := field.exists_run_eq options s h
  have hback := h.advance
  have hinteger := integer_of_numeric hback
  have hpos : (c.advance front.length).pos + back.length = c.pos + (front ++ back).length := by
    rw [Cursor.advance_pos, List.length_append, Nat.add_assoc]
  have hresult {why : Stop} (hin : integerIn field.low field.high (c.advance front.length) = .error why) :
      ∃ s', result = (Reply.stop why s').decoded.result := by
    rw [hin] at hrun
    obtain ⟨s', hstop⟩ := NumberField.record_stop hbegins hrun
    exact ⟨s', by rw [← hstop, ← decode_eq]⟩
  refine ⟨fun hrest => ?_, fun hrest hdigits => ?_, fun hrest hdigits => ?_⟩
  · rw [if_pos hrest] at hinteger
    obtain ⟨_, hstop⟩ := hresult (by rw [integerIn, hinteger])
    exact hstop
  · rw [if_neg hrest, if_pos hdigits, hpos] at hinteger
    obtain ⟨_, hstop⟩ := hresult (by rw [integerIn, hinteger])
    exact hstop
  obtain ⟨hlow, hhigh⟩ := field.narrow
  obtain ⟨hin, hout⟩ := integerIn_of_numeric hlow hhigh hback hrest hdigits
  have hafter : (c.advance front.length).advance (back.length + sign.bytes.length + digits.length) =
      c.advance ((front ++ back).length + sign.bytes.length + digits.length) := by
    rw [Cursor.advance_advance, List.length_append]
    simp only [Nat.add_assoc]
  rw [hafter] at hin
  constructor
  · intro t d
    by_cases hrange : field.low ≤ v ∧ v ≤ field.high
    · rw [hrun, hin hrange]
      simp only [filled, Reply.ok.injEq, true_and, hrange, and_true, v, eq_comm]
    · obtain ⟨offset, -, -, hstop⟩ := hout hrange
      rw [hrun, hstop]
      exact ⟨fun hok => (by cases hok), fun hok => absurd hok.1 hrange⟩
  · intro hrange
    obtain ⟨offset, hle, hge, hstop⟩ := hout hrange
    obtain ⟨_, hrefused⟩ := hresult hstop
    exact ⟨offset, Nat.le_trans (Nat.le_add_right ..) hle, hpos ▸ hge, hrefused⟩

open Scan in
/-- A birth that is too early by one, in spite of its leading zeros. -/
theorem number_exact_birth :
    let input := Utf8.ofString "\x7b\"birth\": -002147483649\x7d"
    let options : Options := { arenaCapacity := 8 }
    NumberField.birth.Begins options (emptied (.new options)) (.start input) (emptied (.new options))
        ((Cursor.start input).advance 9) ∧
      ∃ offset, 9 ≤ offset ∧ offset ≤ 10 ∧
        (decode options (.new options) input).result = .error (.numberOverflow offset) := by
  intro input options
  have hopen : Record.expect Byte.openBrace (.start input) =
      .ok ((), (Cursor.start input).advance 1) := by decide +kernel
  have hspace : ((Cursor.start input).advance 1).skipSpace = (Cursor.start input).advance 1 := by
    decide +kernel
  have hkey : Record.rawString ((Cursor.start input).advance 1) =
      .ok (Field.key .birth, (Cursor.start input).advance 8) := by decide +kernel
  have hcolon : Record.expect Byte.colon ((Cursor.start input).advance 8) =
      .ok ((), (Cursor.start input).advance 9) := by decide +kernel
  have hbegins : NumberField.birth.Begins options (emptied (.new options)) (.start input)
      (emptied (.new options)) ((Cursor.start input).advance 9) :=
    MemberBegins.mk hopen (hspace.symm ▸ .first _ _) hkey hcolon
  have hnumeric : Numeric [Byte.space] .minus (Utf8.ofString "002147483649") [Byte.closeBrace]
      ((Cursor.start input).advance 9).rest := by
    refine ⟨by decide +kernel, fun b hb => ?_, by decide +kernel, fun b hb => ?_, fun hsign => ?_⟩
    · exact List.mem_singleton.1 hb ▸ rfl
    · exact Option.mem_some_iff.1 hb ▸ rfl
    · cases hsign
  obtain ⟨-, -, hexact⟩ := number_exact options (.new options) input .birth hbegins hnumeric
  obtain ⟨-, hout⟩ := hexact (List.cons_ne_nil _ _) (by decide +kernel)
  exact ⟨hbegins, hout (by decide +kernel)⟩

end Record

end Intake
