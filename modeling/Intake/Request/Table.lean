import Intake.Request.Parameter

/-!
# Parameter tables

A table lists the keys that an endpoint knows. A key sets a field, whose kind says how values are
read, and leaves its mark among the keys that are present. Two keys may set one field.
-/

namespace Intake.Request

structure Table where
  Key : Type
  Field : Type
  [decidableEqKey : DecidableEq Key]
  [decidableEqField : DecidableEq Field]
  /-- The keys in the order of their bits. -/
  keys : List Key
  /-- The word of a key in a query. -/
  name : Key → String
  /-- The field that a key sets. -/
  field : Key → Field
  kind : Field → ParameterKind

namespace Table

variable (t : Table)

instance : DecidableEq t.Key := t.decidableEqKey

instance : DecidableEq t.Field := t.decidableEqField

def key? (name : Bytes) : Option t.Key :=
  t.keys.find? fun key => Utf8.ofString (t.name key) == name

/-- The number of a key's bit. -/
def bit (key : t.Key) : Nat := t.keys.idxOf key

abbrev Value (field : t.Field) : Type := (t.kind field).Value

end Table

/-- The parameters of one request: a value for each field, and the keys that were given as bits. -/
structure Values (t : Table) where
  mask : Nat := 0
  value : (field : t.Field) → t.Value field := fun field => (t.kind field).default

namespace Values

variable {t : Table}

def isPresent (v : Values t) (key : t.Key) : Bool := v.mask.testBit (t.bit key)

def present (v : Values t) : List t.Key := t.keys.filter v.isPresent

/-- Whether all bits of `mask` that stand for a key are set. -/
def has (v : Values t) (mask : Nat) : Bool :=
  let known := mask % (1 <<< t.keys.length)
  v.mask &&& known == known

/-- Sets the field of a key and marks the key as given. -/
def set (v : Values t) (key : t.Key) (value : t.Value (t.field key)) : Values t where
  mask := v.mask ||| 1 <<< t.bit key
  value field := if h : t.field key = field then h ▸ value else v.value field

@[simp] theorem value_set_self (v : Values t) (key : t.Key) (value : t.Value (t.field key)) :
    (v.set key value).value (t.field key) = value := by
  simp [set]

theorem value_set_of_ne (v : Values t) {key : t.Key} (value : t.Value (t.field key))
    {field : t.Field} (h : t.field key ≠ field) : (v.set key value).value field = v.value field := by
  simp [set, h]

def read (v : Values t) (key : t.Key) (raw : Bytes) (arena : Arena) : Reading (Values t) :=
  ((t.kind (t.field key)).read raw arena).map (v.set key)

end Values

end Intake.Request
