import Intake.Text.Utf8

/-!
# The byte arena

Decoded text is appended to an arena and named by a `Span`, an offset and a length. An arena has a
fixed capacity: a write that does not fit fails and leaves no trace, and everything written before
keeps its place until the arena is truncated or reset.
-/

namespace Intake

structure Span where
  offset : Nat
  length : Nat
deriving DecidableEq

namespace Span

/-- The offset of a span that names nothing. No arena is large enough to reach it. -/
def absentOffset : Nat := 0xFFFFFFFF

def absent : Span := ⟨absentOffset, 0⟩

instance : Inhabited Span := ⟨absent⟩

/-- The stretch from `start` up to `stop`. -/
def between (start stop : Nat) : Span := ⟨start, stop - start⟩

def stop (span : Span) : Nat := span.offset + span.length

def isAbsent (span : Span) : Bool := span.offset == absentOffset

def isPresent (span : Span) : Bool := !span.isAbsent

def isEmpty (span : Span) : Bool := span.length == 0

end Span

/-- A write that did not fit: the size the arena would have needed, and its capacity. -/
structure Overflow where
  requested : Nat
  capacity : Nat
deriving DecidableEq

def Overflow.message (o : Overflow) : String :=
  s!"arena capacity exceeded: {o.requested} bytes requested, capacity is {o.capacity}"

/-- The largest capacity, which keeps every offset apart from the absent one. -/
def Arena.maxCapacity : Nat := Span.absentOffset - 1

/-- Bytes written so far, and how many there may be. -/
structure Arena where
  written : Array UInt8 := #[]
  capacity : Nat
  capacity_le : capacity ≤ Arena.maxCapacity
deriving DecidableEq

namespace Arena

/-- The capacity of an arena that is made without one. -/
def defaultCapacity : Nat := 8192

def withCapacity (capacity : Nat) : Arena :=
  ⟨#[], min capacity maxCapacity, Nat.min_le_right _ _⟩

/-- The bytes written so far, in order. -/
def contents (a : Arena) : Bytes := a.written.toList

def cursor (a : Arena) : Nat := a.written.size

def remaining (a : Arena) : Nat := a.capacity - a.cursor

@[simp] theorem length_contents (a : Arena) : a.contents.length = a.cursor := by
  simp [contents, cursor]

/-- Appends `bytes` as a whole, or nothing. -/
@[inline] def extend (a : Arena) (bytes : Bytes) : Except Overflow Arena :=
  if bytes.length ≤ a.remaining then .ok { a with written := a.written ++ bytes }
  else .error ⟨a.cursor + bytes.length, a.capacity⟩

@[inline] def push (a : Arena) (byte : UInt8) : Except Overflow Arena :=
  a.extend [byte]

/-- Appends `n` zero bytes and returns the offset of the first. -/
def allocate (a : Arena) (n : Nat) : Except Overflow (Nat × Arena) :=
  if n ≤ a.remaining then .ok (a.cursor, { a with written := a.written ++ List.replicate n (0 : UInt8) })
  else .error ⟨a.cursor + n, a.capacity⟩

/-- Appends one piece after the other, up to the first that does not fit. -/
def extendAll (a : Arena) (pieces : List Bytes) : Except Overflow Arena :=
  pieces.foldlM extend a

theorem extendAll_cons (a : Arena) (piece : Bytes) (pieces : List Bytes) :
    a.extendAll (piece :: pieces) =
      match a.extend piece with
      | .error overflow => .error overflow
      | .ok b => b.extendAll pieces := by
  rw [extendAll, List.foldlM_cons]
  cases a.extend piece <;> rfl

/-- The stretch written since the cursor stood at `start`. -/
def finish (a : Arena) (start : Nat) : Span := .between start a.cursor

/-- Forgets everything from `offset` on. -/
def truncate (a : Arena) (offset : Nat) : Arena :=
  { a with written := a.written.extract 0 offset }

def reset (a : Arena) : Arena := { a with written := #[] }

/-- The bytes a span names, if it is present and lies in the written part. -/
def get? (a : Arena) (span : Span) : Option Bytes :=
  if span.isPresent ∧ span.stop ≤ a.cursor then
    some (a.written.extract span.offset span.stop).toList
  else none

/-- The bytes a span names, or none at all. -/
def view (a : Arena) (span : Span) : Bytes := (a.get? span).getD []

/-- The characters a span names, if it is present and its bytes are UTF-8. -/
def text? (a : Arena) (span : Span) : Option String :=
  ((a.get? span).bind Utf8.decode?).map String.ofList

/-- Overwrites the bytes a span names, the one at index `i` with `byte i`. -/
def overwrite? (a : Arena) (span : Span) (byte : Nat → UInt8) : Option Arena :=
  if span.isPresent ∧ span.stop ≤ a.cursor then
    some { a with
      written := a.written.mapIdx fun i b =>
        if span.offset ≤ i ∧ i < span.stop then byte (i - span.offset) else b }
  else none

theorem contents_extend {a b : Arena} {bytes : Bytes} (h : a.extend bytes = .ok b) :
    b.contents = a.contents ++ bytes := by
  unfold extend at h
  split at h
  · cases h
    simp [contents]
  · cases h

@[simp] theorem contents_truncate (a : Arena) (offset : Nat) :
    (a.truncate offset).contents = a.contents.take offset := by
  simp [contents, truncate]

@[simp] theorem contents_reset (a : Arena) : a.reset.contents = [] := rfl

theorem get?_eq_some_iff {a : Arena} {span : Span} {bytes : Bytes} :
    a.get? span = some bytes ↔
      span.isPresent ∧ span.stop ≤ a.cursor ∧
        bytes = (a.contents.drop span.offset).take span.length := by
  simp only [get?, contents, Option.ite_none_right_eq_some, Option.some.injEq, Array.toList_extract,
    List.extract_eq_take_drop, Span.stop, Nat.add_sub_cancel_left, and_assoc]
  exact ⟨fun ⟨hp, hs, h⟩ => ⟨hp, hs, h.symm⟩, fun ⟨hp, hs, h⟩ => ⟨hp, hs, h.symm⟩⟩

end Arena

end Intake
