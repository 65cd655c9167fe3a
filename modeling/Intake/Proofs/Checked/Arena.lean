import Intake.Proofs.Arena
import Intake.Proofs.Checked

/-!
# Writing with checks

The room of an arena is a difference, and so is the length of the span between two of its offsets. They
are defined while what was written fits and the cursor has not moved back.
-/

namespace Intake

namespace Checked

variable {a : Arena}

/-- Appends `bytes` as a whole, or nothing. -/
def extend (a : Arena) (bytes : Bytes) : Checked (Except Overflow Arena) := do
  let room ← difference a.capacity a.cursor
  if bytes.length ≤ room then return .ok { a with written := a.written ++ bytes }
  else return .error ⟨a.cursor + bytes.length, a.capacity⟩

/-- The stretch written since the cursor stood at `start`. -/
def finish (a : Arena) (start : Nat) : Checked Span := do
  return ⟨start, ← difference a.cursor start⟩

theorem extend_eq (hfits : a.Fits) (bytes : Bytes) : extend a bytes = .ok (a.extend bytes) := by
  rw [extend, difference_of_le hfits, ok_bind, Arena.extend, Arena.remaining]
  split <;> rfl

theorem finish_eq {start : Nat} (h : start ≤ a.cursor) : finish a start = .ok (a.finish start) := by
  rw [finish, difference_of_le h]
  rfl

/-- Nothing was written since the cursor stood behind itself. -/
example : finish (.withCapacity 8) 1 = .error .difference := rfl

end Checked

theorem Arena.Extends.truncate {a b : Arena} (h : a.Extends b) : b.truncate a.cursor = a := by
  refine eq_of_contents ?_ h.2
  rw [contents_truncate, ← length_contents]
  exact (List.prefix_iff_eq_take.1 h.1).symm

end Intake
