import Intake.Proofs.Record.Rendering

/-!
# The grammar of records

The texts that are records, whatever a decoder makes of them. Unlike a rendering, a record may have
members that no field asks for, a premium time and a like may have others than their own, and nothing
is said of what the members give.

The key of a member selects the language of its value. A value that no field asks for is loose text:
a string, a bare word, or anything between matching brackets that is not nested too deep. Between them
commas and colons stand wherever they like, so a bare word is told from what follows only by its end:
it goes on as far as it can.
-/

namespace Intake.Record

open Intake.Stream (opens)

/-! ### Loose text -/

/-- A bare word. A bracket may stand in it, though not open it. -/
def Bare (bs : Bytes) : Prop :=
  (∀ b ∈ bs, endsWord b = false) ∧ ∃ b rest, bs = b :: rest ∧ opens b = false

/-- A byte that may stand anywhere between brackets. -/
def isFiller (b : UInt8) : Bool := Byte.isSpace b || b == Byte.comma || b == Byte.colon

/-- The parts of loose text: a value, and what stands between two brackets. -/
inductive Part where
  | value
  | inside

/-- Loose text in which at most `n` brackets are open at once. -/
inductive Loose : Part → Nat → Bytes → Prop
  | string {n : Nat} {body : Bytes} (h : Sealed body) :
      Loose .value n (Byte.quote :: (body ++ [Byte.quote]))
  | bare {n : Nat} {bs : Bytes} (h : Bare bs) : Loose .value n bs
  | nested {n : Nat} (bracket : Bracket) {bs : Bytes} (h : Loose .inside n bs) :
      Loose .value (n + 1) (bracket.opening :: (bs ++ [bracket.closing]))
  | nil {n : Nat} : Loose .inside n []
  | filler {n : Nat} {b : UInt8} {bs : Bytes} (hb : isFiller b) (h : Loose .inside n bs) :
      Loose .inside n (b :: bs)
  | cons {n : Nat} {value bs : Bytes} (hvalue : Loose .value n value)
      (hends : Bare value → ∀ b ∈ bs.head?, endsWord b = true) (h : Loose .inside n bs) :
      Loose .inside n (value ++ bs)

/-! ### Values -/

/-- A member whose value is in the language that `V` gives for its key. -/
def Entry (V : Bytes → Bytes → Prop) (key bs : Bytes) : Prop :=
  Sealed key ∧ Member key (V key) bs

def IdentifierText (bs : Bytes) : Prop := ∃ n : Identifier, Numeral n.1 bs

def TimestampText (bs : Bytes) : Prop := ∃ t : Timestamp, Numeral t.1 bs

section Values

variable (options : Options)

/-- A value that no field asks for. -/
def SkippedText (bs : Bytes) : Prop := Loose .value (nestingLimit options.maxNesting) bs

/-- The values in the object of a premium time. -/
inductive PremiumText (key bs : Bytes) : Prop
  | time (e : End) (hkey : key = e.key) (h : TimestampText bs)
  | other (hkey : ∀ e : End, key ≠ e.key) (h : SkippedText options bs)

/-- The values in the object of a like. -/
inductive LikeText (key bs : Bytes) : Prop
  | id (hkey : key = Scan.likeIdKey) (h : IdentifierText bs)
  | timestamp (hkey : key = Scan.likeTimestampKey) (h : TimestampText bs)
  | other (hid : key ≠ Scan.likeIdKey) (htimestamp : key ≠ Scan.likeTimestampKey)
      (h : SkippedText options bs)

/-- An object with these keys in which both halves of a like are given. -/
def WholeLike (keys : List Bytes) (bs : Bytes) : Prop :=
  Listing .brace (Entry (LikeText options)) keys bs ∧
    Scan.likeIdKey ∈ keys ∧ Scan.likeTimestampKey ∈ keys

/-- The language of the values of a field. -/
def FieldText : Field → Bytes → Prop
  | .id, bs => IdentifierText bs
  | .birth, bs | .joined, bs => TimestampText bs
  | .sex, bs => ∃ sex : Sex, Quotes options.combineSurrogates (Utf8.ofString sex.code) bs
  | .status, bs =>
    ∃ status : Status, Quotes options.combineSurrogates (Utf8.ofString status.literal) bs
  | .text _, bs => ∃ text, Quotes options.combineSurrogates text bs
  | .premium, bs => ∃ keys, Listing .brace (Entry (PremiumText options)) keys bs
  | .interests, bs => ∃ texts, Listing .square (Quotes options.combineSurrogates) texts bs
  | .likes, bs => ∃ likes, Listing .square (WholeLike options) likes bs

/-- The values of the members of a record. -/
inductive ValueText (key bs : Bytes) : Prop
  | field (field : Field) (hkey : key = field.key) (h : FieldText options field bs)
  | other (hkey : ∀ field : Field, key ≠ field.key) (h : SkippedText options bs)

/-- A record: an object, and the whitespace in front of it. -/
def RecordText (bs : Bytes) : Prop :=
  ∃ gap object keys, Gap gap ∧ bs = gap ++ object ∧
    Listing .brace (Entry (ValueText options)) keys object

end Values

end Intake.Record
