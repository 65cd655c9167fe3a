import Intake.Proofs.Record.Json
import Intake.Record.Decode

/-!
# Renderings of a record

The texts that stand for a given row of members. A rendering is free in its whitespace, in the signs and
leading zeros of its numbers and in the escapes of its strings, and the two members of a like stand in
either order. What it leaves no choice in is which bytes an escaped string stands for: with
`combineSurrogates`, a high surrogate that a low one follows cannot be meant alone.

Each relation takes the thing that is meant and a text. The relation for a whole is built from one
for its parts, as the readers are.
-/

namespace Intake.Record

open Quoted (isHighSurrogate isLowSurrogate combine unescape)

/-! ### Strings -/

/-- Four hex digits that spell the code unit `code`. -/
def HexUnit (code : Nat) (bs : Bytes) : Prop :=
  ∃ a b c d, bs.mapM Byte.hexDigit? = some [a, b, c, d] ∧ code = ((a * 16 + b) * 16 + c) * 16 + d

/-- An escaped low surrogate at the front of a body. -/
def StartsLow (body : Bytes) : Prop :=
  ∃ code digits rest, body = Byte.backslash :: Byte.letterU :: (digits ++ rest) ∧
    HexUnit code digits ∧ isLowSurrogate code

/-- The body of a string that stands for `text`. -/
inductive Spells (combineSurrogates : Bool) : Bytes → Bytes → Prop
  | nil : Spells combineSurrogates [] []
  | plain {b : UInt8} {text body : Bytes} (hq : b ≠ Byte.quote) (hb : b ≠ Byte.backslash)
      (h : Spells combineSurrogates text body) : Spells combineSurrogates (b :: text) (b :: body)
  | escape {b : UInt8} {text body : Bytes} (hu : b ≠ Byte.letterU)
      (h : Spells combineSurrogates text body) :
      Spells combineSurrogates (unescape b :: text) (Byte.backslash :: b :: body)
  | unit {code : Nat} {digits text body : Bytes} (hcode : HexUnit code digits)
      (hlone : combineSurrogates → isHighSurrogate code → ¬ StartsLow body)
      (h : Spells combineSurrogates text body) :
      Spells combineSurrogates (Utf8.encode code ++ text)
        (Byte.backslash :: Byte.letterU :: (digits ++ body))
  | pair {high low : Nat} {highDigits lowDigits text body : Bytes} (hcombine : combineSurrogates)
      (hhigh : HexUnit high highDigits) (hhigh' : isHighSurrogate high)
      (hlow : HexUnit low lowDigits) (hlow' : isLowSurrogate low)
      (h : Spells combineSurrogates text body) :
      Spells combineSurrogates (Utf8.encode (combine high low) ++ text)
        (Byte.backslash :: Byte.letterU :: (highDigits ++
          Byte.backslash :: Byte.letterU :: (lowDigits ++ body)))

/-- A string between its quotes. -/
def Quotes (combineSurrogates : Bool) (text bs : Bytes) : Prop :=
  ∃ body, Spells combineSurrogates text body ∧ bs = Byte.quote :: (body ++ [Byte.quote])

/-! ### Numbers -/

/-- Digits, of which the first may be zeros. -/
def Digits (bs : Bytes) : Prop := bs ≠ [] ∧ ∀ b ∈ bs, Byte.isDigit b

/-- A number with a sign or none. -/
inductive Numeral : Int → Bytes → Prop
  | bare {digits : Bytes} (h : Digits digits) : Numeral (Decimal.value digits) digits
  | plus {digits : Bytes} (h : Digits digits) :
      Numeral (Decimal.value digits) (Byte.plus :: digits)
  | minus {digits : Bytes} (h : Digits digits) :
      Numeral (-(Decimal.value digits : Int)) (Byte.minus :: digits)

/-! ### Arrays and objects -/

section Lists

variable {α : Type}

/-- The items of a list that is not empty, with commas between them. -/
inductive Items (R : α → Bytes → Prop) : List α → Bytes → Prop
  | last {item : α} {before text after : Bytes} (hbefore : Gap before) (h : R item text)
      (hafter : Gap after) : Items R [item] (before ++ (text ++ after))
  | more {item : α} {items : List α} {before text after rest : Bytes} (hbefore : Gap before)
      (h : R item text) (hafter : Gap after) (hrest : Items R items rest) :
      Items R (item :: items) (before ++ (text ++ (after ++ Byte.comma :: rest)))

/-- A list between its brackets. -/
inductive Listing (bracket : Bracket) (R : α → Bytes → Prop) : List α → Bytes → Prop
  | empty {gap : Bytes} (h : Gap gap) :
      Listing bracket R [] (bracket.opening :: (gap ++ [bracket.closing]))
  | full {items : List α} {text : Bytes} (h : Items R items text) :
      Listing bracket R items (bracket.opening :: (text ++ [bracket.closing]))

/-- A member of an object: a key, and a value that `R` allows. -/
inductive Member (key : Bytes) (R : Bytes → Prop) : Bytes → Prop
  | mk {before after value : Bytes} (hbefore : Gap before) (hafter : Gap after) (h : R value) :
      Member key R
        (Byte.quote :: (key ++ Byte.quote :: (before ++ Byte.colon :: (after ++ value))))

end Lists

/-! ### What a member gives -/

/-- A number that fits 32 bits without a sign. -/
abbrev Identifier : Type := { n : Nat // n < Decimal.unsignedBound }

/-- A number that fits 32 bits with a sign. -/
abbrev Timestamp : Type := { t : Int // -Decimal.signedBound ≤ t ∧ t < Decimal.signedBound }

/-- The ends of a premium time. -/
inductive End where
  | start
  | finish
deriving DecidableEq

def End.key : End → Bytes
  | start => Scan.startKey
  | finish => Scan.finishKey

/-- The members of a like. -/
inductive LikePart where
  | id (value : Identifier)
  | timestamp (value : Timestamp)

namespace LikePart

def key : LikePart → Bytes
  | id _ => Scan.likeIdKey
  | timestamp _ => Scan.likeTimestampKey

def number : LikePart → Int
  | id value => value.1
  | timestamp value => value.1

end LikePart

structure GivenLike where
  toId : Identifier
  timestamp : Timestamp

namespace GivenLike

/-- What the account is to hold. -/
def like (given : GivenLike) : Like := ⟨given.toId.1, given.timestamp.1⟩

def Renders (given : GivenLike) (bs : Bytes) : Prop :=
  ∃ parts : List LikePart,
    (parts = [.id given.toId, .timestamp given.timestamp] ∨
      parts = [.timestamp given.timestamp, .id given.toId]) ∧
    Listing .brace (fun part => Member part.key (Numeral part.number)) parts bs

end GivenLike

namespace Field

def key : Field → Bytes
  | id => Utf8.ofString "id"
  | sex => Utf8.ofString "sex"
  | status => Utf8.ofString "status"
  | text field => Utf8.ofString field.name
  | birth => Utf8.ofString "birth"
  | joined => Utf8.ofString "joined"
  | premium => Utf8.ofString "premium"
  | interests => Utf8.ofString "interests"
  | likes => Utf8.ofString "likes"

/-- What a member can give for a field. -/
def Value : Field → Type
  | id => Identifier
  | sex => Sex
  | status => Status
  | text _ => Bytes
  | birth | joined => Timestamp
  | premium => List (End × Timestamp)
  | interests => List Bytes
  | likes => List GivenLike

def Renders (combineSurrogates : Bool) : (field : Field) → field.Value → Bytes → Prop
  | id, value => Numeral value.1
  | sex, value => Quotes combineSurrogates (Utf8.ofString value.code)
  | status, value => Quotes combineSurrogates (Utf8.ofString value.literal)
  | text _, value => Quotes combineSurrogates value
  | birth, value | joined, value => Numeral value.1
  | premium, value => Listing .brace (fun part => Member (End.key part.1) (Numeral part.2.1)) value
  | interests, value => Listing .square (Quotes combineSurrogates) value
  | likes, value => Listing .square GivenLike.Renders value

end Field

/-- A field and a value for it. -/
abbrev Given : Type := (field : Field) × field.Value

/-- The value of the last member that gives a field. -/
def last? (given : List Given) (field : Field) : Option field.Value :=
  given.reverse.findSome? fun g => if h : g.1 = field then some (h ▸ g.2) else none

/-- A text of the record that has these members. -/
def Rendering (combineSurrogates : Bool) (given : List Given) (bs : Bytes) : Prop :=
  ∃ gap object, Gap gap ∧ bs = gap ++ object ∧
    Listing .brace (fun g => Member g.1.key (g.1.Renders combineSurrogates g.2)) given object

theorem last?_concat_self (given : List Given) (field : Field) (value : field.Value) :
    last? (given ++ [⟨field, value⟩]) field = some value := by
  simp [last?]

theorem last?_concat_of_ne (given : List Given) {g : Given} {field : Field} (h : g.1 ≠ field) :
    last? (given ++ [g]) field = last? given field := by
  simp [last?, h]

end Intake.Record
