import Intake.Record.Token

/-!
# Scanners

A scanner reads the input from a cursor and works on a state as it goes. When it gives up, the state
keeps what was done before. A scanner never moves backward: that is part of the type, so the loop
over the items of an array or an object ends because each comma is read once.
-/

namespace Intake.Record

inductive Reply (σ α : Type) where
  | ok (value : α) (state : σ) (after : Cursor)
  | stop (why : Stop) (state : σ)

/-- A reader with a state. -/
structure Scan (σ α : Type) where
  run : σ → Cursor → Reply σ α
  reaches : ∀ {s c a s' d}, run s c = .ok a s' d → c.Reaches d

namespace Scan

variable {σ τ α β : Type}

def pure (a : α) : Scan σ α where
  run s c := .ok a s c
  reaches h := by
    cases h
    exact .refl _

def bind (x : Scan σ α) (f : α → Scan σ β) : Scan σ β where
  run s c :=
    match x.run s c with
    | .ok a s' d => (f a).run s' d
    | .stop why s' => .stop why s'
  reaches h := by
    split at h
    next hx => exact (x.reaches hx).trans ((f _).reaches h)
    · cases h

instance : Monad (Scan σ) where
  pure := pure
  bind := bind

@[simp] theorem run_pure (a : α) (s : σ) (c : Cursor) :
    (Pure.pure a : Scan σ α).run s c = .ok a s c := rfl

@[simp] theorem run_bind (x : Scan σ α) (f : α → Scan σ β) (s : σ) (c : Cursor) :
    (x >>= f).run s c =
      match x.run s c with
      | .ok a s' d => (f a).run s' d
      | .stop why s' => .stop why s' := rfl

def get : Scan σ σ where
  run s c := .ok s s c
  reaches h := by
    cases h
    exact .refl _

def modify (f : σ → σ) : Scan σ Unit where
  run s c := .ok () (f s) c
  reaches h := by
    cases h
    exact .refl _

def position : Scan σ Nat where
  run s c := .ok c.pos s c
  reaches h := by
    cases h
    exact .refl _

def fail (fault : Fault) : Scan σ α where
  run s _ := .stop (.fault fault) s
  reaches h := by cases h

def skipSpace : Scan σ Unit where
  run s c := .ok () s c.skipSpace
  reaches h := by
    cases h
    exact Cursor.reaches_skipSpace _

/-- A reader that leaves the state alone. -/
def read (f : Cursor → Read α) (hf : Forward f) : Scan σ α where
  run s c :=
    match f c with
    | .ok (a, d) => .ok a s d
    | .error why => .stop why s
  reaches h := by
    split at h
    next hfc =>
      cases h
      exact hf hfc
    · cases h

theorem run_read (f : Cursor → Read α) (hf : Forward f) (s : σ) (c : Cursor) :
    (read f hf : Scan σ α).run s c =
      match f c with
      | .ok (a, d) => .ok a s d
      | .error why => .stop why s := rfl

/-- Runs a scanner on a state of its own, which is lost when the scanner gives up. -/
def withState (init : τ) (x : Scan τ α) : Scan σ (α × τ) where
  run s c :=
    match x.run init c with
    | .ok a t d => .ok (a, t) s d
    | .stop why _ => .stop why s
  reaches h := by
    split at h
    next hx =>
      cases h
      exact x.reaches hx
    · cases h

theorem run_withState (init : τ) (x : Scan τ α) (s : σ) (c : Cursor) :
    (withState init x : Scan σ (α × τ)).run s c =
      match x.run init c with
      | .ok a t d => .ok (a, t) s d
      | .stop why _ => .stop why s := rfl

def expect (b : UInt8) : Scan σ Unit :=
  read (Record.expect b) fun _ _ _ h => (reaches_of_expect h).1

/-- Reads a string and returns its body as it is written. -/
def rawString : Scan σ Bytes :=
  read Record.rawString fun _ _ _ h => (reaches_of_rawString h).1

/-- Reads an item, and one more after each comma, up to the byte `close`. -/
def runItems (close : UInt8) (item : Scan σ Unit) (s : σ) (c : Cursor) : Reply σ Unit :=
  match h : item.run s c with
  | .stop why s' => .stop why s'
  | .ok _ s' d =>
    match hd : d.skipSpace.rest with
    | [] => .stop (.incomplete 1) s'
    | b :: _ =>
      have : (d.skipSpace.advance 1).rest.length < c.rest.length :=
        Nat.lt_of_lt_of_le (Cursor.length_advance_one_lt hd)
          ((item.reaches h).trans d.reaches_skipSpace).length_le
      if b = Byte.comma then runItems close item s' (d.skipSpace.advance 1)
      else if b = close then .ok () s' (d.skipSpace.advance 1)
      else .stop (.fault (.unexpectedByte b d.skipSpace.pos)) s'
termination_by c.rest.length
decreasing_by exact this

theorem reaches_of_runItems {close : UInt8} {item : Scan σ Unit} {s s' : σ} {c d : Cursor} {u : Unit}
    (h : runItems close item s c = .ok u s' d) : c.Reaches d := by
  fun_induction runItems close item s c with
  | case1 => cases h
  | case2 => cases h
  | case3 s c _ s₁ e hi _ he _ ih =>
    exact (item.reaches hi).trans
      (e.reaches_skipSpace.trans ((Cursor.reaches_advance_one he).trans (ih h)))
  | case4 s c _ s₁ e hi _ he _ _ =>
    cases h
    exact (item.reaches hi).trans (e.reaches_skipSpace.trans (Cursor.reaches_advance_one he))
  | case5 => cases h

theorem runItems_eq (close : UInt8) (item : Scan σ Unit) (s : σ) (c : Cursor) :
    runItems close item s c =
      match item.run s c with
      | .stop why s' => .stop why s'
      | .ok _ s' d =>
        match d.skipSpace.rest with
        | [] => .stop (.incomplete 1) s'
        | b :: _ =>
          if b = Byte.comma then runItems close item s' (d.skipSpace.advance 1)
          else if b = close then .ok () s' (d.skipSpace.advance 1)
          else .stop (.fault (.unexpectedByte b d.skipSpace.pos)) s' := by
  rw [runItems]
  split
  next hi => rw [hi]
  next s' d hi =>
    simp only [hi]
    split
    next hd => rw [hd]
    next hd => rw [hd]

def runList (close : UInt8) (item : Scan σ Unit) (s : σ) (c : Cursor) : Reply σ Unit :=
  match c.skipSpace.rest with
  | [] => .stop (.incomplete 1) s
  | b :: _ =>
    if b = close then .ok () s (c.skipSpace.advance 1) else runItems close item s c.skipSpace

theorem reaches_of_runList {close : UInt8} {item : Scan σ Unit} {s s' : σ} {c d : Cursor} {u : Unit}
    (h : runList close item s c = .ok u s' d) : c.Reaches d := by
  unfold runList at h
  split at h
  · cases h
  next hc =>
    split at h
    · cases h
      exact c.reaches_skipSpace.trans (Cursor.reaches_advance_one hc)
    · exact c.reaches_skipSpace.trans (reaches_of_runItems h)

/-- The items of a list that ends with `close`. -/
def list (close : UInt8) (item : Scan σ Unit) : Scan σ Unit where
  run := runList close item
  reaches := reaches_of_runList

def elements (element : Scan σ Unit) : Scan σ Unit := do
  expect Byte.openSquare
  list Byte.closeSquare element

/-- The members of an object. Each key is handed to `member`, which reads the value. -/
def members (member : Bytes → Scan σ Unit) : Scan σ Unit := do
  expect Byte.openBrace
  list Byte.closeBrace do
    let key ← rawString
    expect Byte.colon
    member key

theorem length_lt_of_members {member : Bytes → Scan σ Unit} {s s' : σ} {c d : Cursor} {u : Unit}
    (h : (members member).run s c = .ok u s' d) : d.rest.length < c.rest.length := by
  simp only [members, run_bind, expect, read] at h
  cases he : Record.expect Byte.openBrace c with
  | error why => simp [he] at h
  | ok found =>
    simp only [he] at h
    exact Nat.lt_of_le_of_lt (Scan.reaches _ h).length_le (reaches_of_expect he).2

end Scan

end Intake.Record
