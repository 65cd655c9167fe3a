import Intake.Proofs.Checked.Parameter
import Mathlib.Data.List.Induction

/-!
# Group keys in five places

A list of group keys is kept in a row of five places with a length. Clearing the list sets the length to
zero and leaves the places as they are, so what stands behind the listed keys is whatever was listed
before. The operations are written out here on such a row, with the write to a place and the slice of the
listed ones made to trap where they are not defined.

After any row of pushes and clears none of them traps, and all of them answer what the list answers: a key
that is not listed finds a place, since there are no more keys than places. The list is that of the keys
that were pushed since it was cleared last, each where it was pushed first.
-/

namespace Intake

namespace Request.GroupKeys

/-- What can be done to a list of keys. -/
inductive Action where
  | push (key : GroupKey)
  | clear
deriving DecidableEq

def Action.key? : Action → Option GroupKey
  | push key => some key
  | clear => none

/-- The list after an action. A key that is listed already changes nothing. -/
def act (keys : GroupKeys) : Action → GroupKeys
  | .push key => (keys.push? key).getD keys
  | .clear => empty

/-- An empty list after a row of actions. -/
def run (actions : List Action) : GroupKeys := actions.foldl act empty

/-- The keys that were pushed since the list was cleared last, as often as they were pushed. -/
def pushed (actions : List Action) : List GroupKey :=
  (actions.reverse.takeWhile (· ≠ .clear)).reverse.filterMap Action.key?

variable {keys : GroupKeys} {key : GroupKey}

theorem push?_eq_none_iff : keys.push? key = none ↔ key ∈ keys.toList := by
  unfold push?
  split
  next h => exact iff_of_true rfl h
  next h => exact iff_of_false (Option.some_ne_none _) h

theorem act_push_of_mem (h : key ∈ keys.toList) : keys.act (.push key) = keys := by
  rw [act, push?_eq_none_iff.2 h, Option.getD_none]

theorem toList_push_of_not_mem (h : key ∉ keys.toList) :
    (keys.act (.push key)).toList = keys.toList ++ [key] := by
  obtain ⟨more, hmore⟩ := Option.ne_none_iff_exists'.1 (mt push?_eq_none_iff.1 h)
  rw [act, hmore, Option.getD_some]
  exact (push?_eq_some_iff.1 hmore).2

end Request.GroupKeys

namespace Checked

open Request

/-- A row of places for all keys there are. The first `length` of them are listed, and the others have what
was left there. -/
structure Slots where
  places : Vector GroupKey GroupKeys.maxLength
  length : Nat

namespace Slots

/-- No key is listed, whatever the places have. -/
def new : Slots := ⟨.replicate GroupKeys.maxLength .sex, 0⟩

def listed (s : Slots) : Checked (List GroupKey) := do
  require .slice (s.length ≤ GroupKeys.maxLength)
  return s.places.toList.take s.length

def contains (s : Slots) (key : GroupKey) : Checked Bool := return (← s.listed).contains key

/-- The row with a key written to one of its places. -/
def write (s : Slots) (i : Nat) (key : GroupKey) : Checked (Vector GroupKey GroupKeys.maxLength) :=
  if h : i < GroupKeys.maxLength then .ok (s.places.set i key h) else .error .index

/-- Adds a key behind those that are listed, and says whether it was not listed yet. -/
def push (s : Slots) (key : GroupKey) : Checked (Bool × Slots) := do
  if ← s.contains key then return (false, s)
  else
    let places ← s.write s.length key
    require .sum (s.length + 1 < 0x100)
    return (true, ⟨places, s.length + 1⟩)

/-- Nothing is listed any more. The places keep what they have. -/
def clear (s : Slots) : Slots := { s with length := 0 }

/-- A word with the bit of a key. -/
def mark (mask : BitVec 16) (key : GroupKey) : Checked (BitVec 16) := do
  require .shift (key.number < 16)
  return mask ||| 1#16 <<< key.number

/-- The set of the listed keys in a word. -/
def mask (s : Slots) : Checked (BitVec 16) := do (← s.listed).foldlM mark 0#16

/-- Two rows are equal where they list the same, whatever stands in their other places. -/
def equal (s t : Slots) : Checked Bool := return decide ((← s.listed) = (← t.listed))

def act (s : Slots) : GroupKeys.Action → Checked Slots
  | .push key => return (← s.push key).2
  | .clear => return s.clear

/-- An empty row after a row of actions. -/
def run (actions : List GroupKeys.Action) : Checked Slots := actions.foldlM act new

/-- The row lists the keys. -/
structure Holds (s : Slots) (keys : GroupKeys) : Prop where
  length : s.length = keys.toList.length
  taken : s.places.toList.take s.length = keys.toList

variable {s t : Slots} {keys others : GroupKeys}

theorem Holds.clear (_ : s.Holds keys) : s.clear.Holds .empty := ⟨rfl, rfl⟩

theorem Holds.length_le (h : s.Holds keys) : s.length ≤ GroupKeys.maxLength := by
  rw [h.length]
  exact length_keys_le keys

theorem Holds.listed (h : s.Holds keys) : s.listed = .ok keys.toList := by
  rw [Slots.listed, require_of h.length_le, ok_bind, h.taken]
  rfl

theorem Holds.contains (h : s.Holds keys) (key : GroupKey) :
    s.contains key = .ok (keys.contains key) := by
  rw [Slots.contains, h.listed, ok_bind, GroupKeys.contains, List.contains_eq_mem]
  rfl

theorem Holds.push_of_mem (h : s.Holds keys) {key : GroupKey} (hmem : key ∈ keys.toList) :
    s.push key = .ok (false, s) := by
  rw [push, h.contains, ok_bind, GroupKeys.contains, if_pos (decide_eq_true hmem)]
  rfl

theorem Holds.push_of_not_mem (h : s.Holds keys) {key : GroupKey} (hmem : key ∉ keys.toList) :
    ∃ more, s.push key = .ok (true, more) ∧ more.Holds (keys.act (.push key)) := by
  have hlt : s.length < GroupKeys.maxLength := by
    rw [h.length]
    exact length_lt_of_not_mem hmem
  have hbyte : s.length + 1 < 0x100 := Nat.lt_of_le_of_lt hlt (by decide)
  have hlisted := GroupKeys.toList_push_of_not_mem hmem
  refine ⟨⟨s.places.set s.length key hlt, s.length + 1⟩, ?_, ?_, ?_⟩
  · rw [push, h.contains, ok_bind, GroupKeys.contains, if_neg fun hin => hmem (of_decide_eq_true hin),
      write, dif_pos hlt, ok_bind, require_of hbyte]
    rfl
  · rw [hlisted, List.length_append, List.length_singleton]
    exact congrArg (· + 1) h.length
  · -- The place that is written lies behind the listed ones, which are as before.
    have hset : s.length < (s.places.toList.set s.length key).length := by
      rw [List.length_set, Vector.length_toList]
      exact hlt
    show (s.places.set s.length key hlt).toList.take (s.length + 1) = _
    rw [Vector.toList_set, List.take_succ_eq_append_getElem hset, List.getElem_set_self,
      List.take_set_of_le (Nat.le_refl _), h.taken, hlisted]

theorem Holds.act (h : s.Holds keys) (action : GroupKeys.Action) :
    ∃ more, s.act action = .ok more ∧ more.Holds (keys.act action) := by
  cases action with
  | clear => exact ⟨s.clear, rfl, h.clear⟩
  | push key =>
      by_cases hmem : key ∈ keys.toList
      · rw [Slots.act, h.push_of_mem hmem, ok_bind, GroupKeys.act_push_of_mem hmem]
        exact ⟨s, rfl, h⟩
      · obtain ⟨more, hpush, hmore⟩ := h.push_of_not_mem hmem
        rw [Slots.act, hpush, ok_bind]
        exact ⟨more, rfl, hmore⟩

theorem exists_mark (word : BitVec 16) (key : GroupKey) :
    ∃ mask, mark word key = .ok mask ∧ mask.toNat = word.toNat ||| 1 <<< key.number := by
  have hnumber : key.number < 16 := by cases key <;> decide
  have hbit : (1#16 <<< key.number).toNat = 1 <<< key.number := by cases key <;> rfl
  refine ⟨word ||| 1#16 <<< key.number, ?_, ?_⟩
  · rw [mark, require_of hnumber]
    rfl
  · rw [BitVec.toNat_or, hbit]

theorem exists_marks (list : List GroupKey) (word : BitVec 16) :
    ∃ mask, list.foldlM mark word = .ok mask ∧
      mask.toNat = list.foldl (fun mask key => mask ||| 1 <<< key.number) word.toNat := by
  induction list generalizing word with
  | nil => exact ⟨word, rfl, rfl⟩
  | cons key list ih =>
      obtain ⟨more, hmark, hmore⟩ := exists_mark word key
      rw [List.foldlM_cons, List.foldl_cons, hmark, ok_bind, ← hmore]
      exact ih more

theorem Holds.mask (h : s.Holds keys) : ∃ mask, s.mask = .ok mask ∧ mask.toNat = keys.mask := by
  rw [Slots.mask, h.listed, ok_bind]
  exact exists_marks keys.toList 0#16

theorem Holds.equal (h : s.Holds keys) (ht : t.Holds others) :
    s.equal t = .ok (decide (keys.toList = others.toList)) := by
  rw [Slots.equal, h.listed, ok_bind, ht.listed, ok_bind]
  rfl

/-- What was listed before the list was cleared is still in the places and makes no difference. -/
example : (do (← run [.push .city, .push .status, .clear, .push .sex]).equal (← run [.push .sex])) =
    .ok true := rfl

end Slots

end Checked

end Intake
