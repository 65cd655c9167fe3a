import Intake.Text.Utf8

/-!
# Group keys

The fields by which accounts can be grouped, and lists of them in which none stands twice.
-/

namespace Intake.Request

inductive GroupKey where
  | sex
  | status
  | country
  | city
  | interests
deriving DecidableEq

namespace GroupKey

def all : List GroupKey := [sex, status, country, city, interests]

theorem mem_all (key : GroupKey) : key ∈ all := by
  cases key <;> decide

def name : GroupKey → String
  | sex => "sex"
  | status => "status"
  | country => "country"
  | city => "city"
  | interests => "interests"

def ofName? (bs : Bytes) : Option GroupKey :=
  all.find? fun key => Utf8.ofString key.name == bs

/-- The number of a key, which is that of its bit in a mask. -/
def number : GroupKey → Nat
  | sex => 0
  | status => 1
  | country => 2
  | city => 3
  | interests => 4

end GroupKey

/-- Distinct group keys in order. -/
structure GroupKeys where
  toList : List GroupKey := []
  nodup : toList.Nodup := by decide
deriving DecidableEq

namespace GroupKeys

def maxLength : Nat := GroupKey.all.length

def empty : GroupKeys := {}

def contains (keys : GroupKeys) (key : GroupKey) : Bool := decide (key ∈ keys.toList)

/-- Adds a key at the end, unless it is listed already. -/
def push? (keys : GroupKeys) (key : GroupKey) : Option GroupKeys :=
  if h : key ∈ keys.toList then none
  else some
    { toList := keys.toList ++ [key]
      nodup := by
        rw [List.nodup_append]
        refine ⟨keys.nodup, by simp, ?_⟩
        intro a ha b hb hab
        rw [List.mem_singleton] at hb
        exact h (hb ▸ hab ▸ ha) }

/-- The set of the listed keys, one bit for each. -/
def mask (keys : GroupKeys) : Nat :=
  keys.toList.foldl (fun mask key => mask ||| 1 <<< key.number) 0

/-- The keys of a row of names, each known and none given twice. -/
def ofNames? (names : List Bytes) : Option GroupKeys :=
  names.foldlM (fun keys name => do keys.push? (← GroupKey.ofName? name)) empty

/-- The keys of a list with commas between them. -/
def parse? (bs : Bytes) : Option GroupKeys := ofNames? (bs.splitOn Byte.comma)

end GroupKeys

end Intake.Request
