import Intake.Calendar
import Intake.Options
import Intake.Text.Decimal

/-!
# Accounts

An account has fields of fixed size and texts. The texts lie in the account's own arena and are
named by spans. The interests are kept as fenceposts: `k` interests are `k + 1` offsets, and
interest `i` lies between posts `i` and `i + 1`.
-/

namespace Intake

inductive Sex where
  | female
  | male
deriving DecidableEq

namespace Sex

/-- The letter that stands for a sex. -/
def code : Sex → String
  | female => "f"
  | male => "m"

def ofCode? (bs : Bytes) : Option Sex :=
  [male, female].find? fun sex => Utf8.ofString sex.code == bs

/-- The number of a sex, or of its absence. -/
def number : Option Sex → Nat
  | some female => 0
  | some male => 1
  | none => 255

end Sex

inductive Status where
  | free
  | complicated
  | occupied
deriving DecidableEq

namespace Status

def literal : Status → String
  | free => "свободны"
  | complicated => "всё сложно"
  | occupied => "заняты"

def ofLiteral? (bs : Bytes) : Option Status :=
  [free, complicated, occupied].find? fun status => Utf8.ofString status.literal == bs

def number : Option Status → Nat
  | some free => 0
  | some complicated => 1
  | some occupied => 2
  | none => 255

end Status

/-- The point in time that stands for none. -/
def absentTimestamp : Int := Decimal.signedBound - 1

/-- The identifier that stands for none. -/
def absentId : Nat := Decimal.unsignedBound - 1

structure Like where
  toId : Nat
  timestamp : Int
deriving DecidableEq

/-- The time during which an account is premium. -/
structure Premium where
  start : Int := absentTimestamp
  finish : Int := absentTimestamp
deriving DecidableEq

namespace Premium

def absent : Premium := {}

def isPresent (p : Premium) : Bool :=
  p.start != absentTimestamp && p.finish != absentTimestamp

def isActiveAt (p : Premium) (now : Int) : Bool :=
  p.isPresent && p.start ≤ now && now < p.finish

end Premium

/-- The fields of an account that hold a text. -/
inductive TextField where
  | fname
  | sname
  | country
  | city
  | phone
  | email
deriving DecidableEq

namespace TextField

def all : List TextField := [fname, sname, country, city, phone, email]

def name : TextField → String
  | fname => "fname"
  | sname => "sname"
  | country => "country"
  | city => "city"
  | phone => "phone"
  | email => "email"

end TextField

structure Account where
  id : Nat := absentId
  sex : Option Sex := none
  status : Option Status := none
  joined : Int := absentTimestamp
  birth : Int := absentTimestamp
  premium : Premium := {}
  texts : TextField → Span := fun _ => .absent
  /-- The fenceposts of the interests. -/
  interestPosts : Array Nat := #[]
  likes : Array Like := #[]
  arena : Arena

namespace Account

def new (options : Options) : Account :=
  { arena := .withCapacity options.arenaCapacity }

/-- Forgets every field. The arena keeps its bytes. -/
def clear (a : Account) : Account := { arena := a.arena }

def setText (a : Account) (field : TextField) (span : Span) : Account :=
  { a with texts := fun other => if other = field then span else a.texts other }

@[simp] theorem texts_setText_self (a : Account) (field : TextField) (span : Span) :
    (a.setText field span).texts field = span := by simp [setText]

theorem texts_setText_of_ne (a : Account) {field other : TextField} (span : Span)
    (h : other ≠ field) : (a.setText field span).texts other = a.texts other := by
  simp [setText, h]

def interestCount (a : Account) : Nat := a.interestPosts.size - 1

def interest? (a : Account) (i : Nat) : Option Span := do
  let start ← a.interestPosts[i]?
  let stop ← a.interestPosts[i + 1]?
  return .between start stop

def interestSpans (a : Account) : List Span :=
  a.interestPosts.toList.zipWith Span.between a.interestPosts.toList.tail

def interests (a : Account) : List Bytes := a.interestSpans.map a.arena.view

/-- Adds an interest, whose text directly follows that of the one before. -/
def pushInterest (a : Account) (span : Span) : Account :=
  let posts := if a.interestPosts.isEmpty then #[span.offset] else a.interestPosts
  { a with interestPosts := posts.push span.stop }

def clearInterests (a : Account) : Account := { a with interestPosts := #[] }

def addLike (a : Account) (like : Like) : Account := { a with likes := a.likes.push like }

def clearLikes (a : Account) : Account := { a with likes := #[] }

/-- Appends a text to the arena. -/
def intern (a : Account) (bytes : Bytes) : Except Overflow (Span × Account) := do
  let arena ← a.arena.extend bytes
  return (arena.finish a.arena.cursor, { a with arena })

/-- The year of a point in time that is not absent. -/
def yearOf? [DateTimes] (timestamp : Int) : Option Int :=
  if timestamp = absentTimestamp then none else some (Calendar.ofTimestamp timestamp).year

def birthYear? [DateTimes] (a : Account) : Option Int := yearOf? a.birth

def joinedYear? [DateTimes] (a : Account) : Option Int := yearOf? a.joined

end Account

end Intake
