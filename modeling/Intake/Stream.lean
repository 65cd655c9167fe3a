import Intake.Calendar.Gregorian
import Intake.Record.Decode
import Intake.Stream.Balanced

/-!
# Account streams

A data file is one document that holds an array of records. A stream starts past the first square
bracket of the file and decodes one record after the other into an account that it is given. A
record with a fault is stepped over as a whole; a record that the input cuts off ends the stream.

A program that reads data files gets the Gregorian calendar with them, for the dates of the accounts.
-/

namespace Intake

/-- A place in a data file, and what was met on the way to it. -/
structure Stream where
  options : Options
  cursor : Cursor
  decoded : Nat := 0
  skipped : Nat := 0
  truncated : Bool := false

namespace Stream

inductive Item where
  | decoded
  /-- The record has a fault and was stepped over. Offsets count from its opening brace. -/
  | skipped (fault : Record.Fault)
deriving DecidableEq

/-- The stream of the records after the first square bracket. -/
def new (options : Options) (input : Bytes) : Stream where
  options := options
  cursor :=
    let array := (Cursor.start input).skipWhile (· != Byte.openSquare)
    if array.rest = [] then array else array.advance 1

/-- The next opening brace, unless the array ends before it. -/
def seek? (c : Cursor) : Option Cursor :=
  let found := c.skipWhile fun b => b != Byte.openBrace && b != Byte.closeSquare
  match found.rest with
  | [] => none
  | b :: _ => if b = Byte.openBrace then some found else none

structure Step where
  /-- The record that was met, if there was one. -/
  item : Option Item
  stream : Stream
  account : Account
  events : List Event

/-- Decodes the next record into `account`. -/
def next (s : Stream) (account : Account) : Step :=
  if s.truncated then ⟨none, s, account, []⟩
  else
    match seek? s.cursor with
    | none => ⟨none, { s with cursor := s.cursor.toEnd }, account, []⟩
    | some record =>
      let decoded := Record.decode s.options account record.rest
      match decoded.result with
      | .ok (.complete consumed) =>
        ⟨some .decoded, { s with cursor := record.advance consumed, decoded := s.decoded + 1 },
          decoded.account, decoded.events⟩
      | .ok (.incomplete _) =>
        ⟨none, { s with cursor := s.cursor.toEnd, truncated := true }, decoded.account,
          [.cutAccount record.pos]⟩
      | .error fault =>
        let end? := balancedEnd? 0 record
        ⟨some (.skipped fault),
          { s with
            cursor := end?.getD s.cursor.toEnd
            skipped := s.skipped + 1
            truncated := end?.isNone },
          decoded.account, [.skippedAccount record.pos fault]⟩

theorem reaches_of_seek? {c d : Cursor} (h : seek? c = some d) :
    c.Reaches d ∧ d.rest.length ≤ c.rest.length ∧ 0 < d.rest.length := by
  simp only [seek?] at h
  split at h
  · cases h
  next hr =>
    split at h
    · cases h
      have hreach := c.reaches_skipWhile fun b => b != Byte.openBrace && b != Byte.closeSquare
      exact ⟨hreach, hreach.length_le, by simp [hr]⟩
    · cases h

theorem length_next_lt {s : Stream} {account : Account} {item : Item}
    (h : (s.next account).item = some item) :
    (s.next account).stream.cursor.rest.length < s.cursor.rest.length := by
  unfold next at h ⊢
  by_cases ht : s.truncated
  · simp [ht] at h
  simp only [ht, if_false, Bool.false_eq_true] at h ⊢
  cases hs : seek? s.cursor with
  | none => simp [hs] at h
  | some record =>
    obtain ⟨-, hle, hpos⟩ := reaches_of_seek? hs
    simp only [hs] at h ⊢
    match hd : (Record.decode s.options account record.rest).result with
    | .ok (.complete consumed) =>
      have := (Record.consumed_of_decode hd).1
      simp only [Cursor.advance, List.length_drop]
      omega
    | .ok (.incomplete missing) => simp [hd] at h
    | .error fault =>
      simp only
      cases hb : balancedEnd? 0 record with
      | none =>
        simp only [Option.getD_none, Cursor.toEnd, List.length_nil]
        omega
      | some after =>
        have := (reaches_of_balancedEnd? hb).2
        simp only [Option.getD_some]
        omega

/-- What was made of the rest of a stream. -/
structure Drained (β : Type) where
  value : β
  /-- How many records were visited. -/
  count : Nat
  stream : Stream
  account : Account
  events : List Event

/-- Decodes every remaining record into `account` and visits those that have no fault. -/
def forEach {β : Type} (visit : β → Account → β) (value : β) (s : Stream) (account : Account) :
    Drained β :=
  let step := s.next account
  match h : step.item with
  | none => ⟨value, 0, step.stream, step.account, step.events⟩
  | some item =>
    have := length_next_lt h
    let visited := item == .decoded
    let value := if visited then visit value step.account else value
    let rest := forEach visit value step.stream step.account
    { rest with
      count := rest.count + visited.toNat
      events := step.events ++ rest.events }
termination_by s.cursor.rest.length

end Stream

end Intake
