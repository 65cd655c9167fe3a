import Intake.Proofs.Arena

/-!
# Runs of an arena

Whatever is done to an arena, and whatever of it fails, what was written fits.
-/

namespace Intake.Arena

/-- What can be done to an arena. -/
inductive Action where
  | allocate (n : Nat)
  | push (byte : UInt8)
  | extend (bytes : Bytes)
  | truncate (offset : Nat)
  | reset
  | overwrite (span : Span) (byte : Nat → UInt8)

/-- The arena after an action. One that fails leaves it as it was. -/
def act (a : Arena) : Action → Arena
  | .allocate n =>
    match a.allocate n with
    | .ok (_, allocated) => allocated
    | .error _ => a
  | .push byte =>
    match a.push byte with
    | .ok written => written
    | .error _ => a
  | .extend bytes =>
    match a.extend bytes with
    | .ok written => written
    | .error _ => a
  | .truncate offset => a.truncate offset
  | .reset => a.reset
  | .overwrite span byte => (a.overwrite? span byte).getD a

/-- A new arena after a row of actions. -/
def run (capacity : Nat) (actions : List Action) : Arena :=
  actions.foldl act (.withCapacity capacity)

variable {a b : Arena}

theorem extend_of_allocate {n offset : Nat} (h : a.allocate n = .ok (offset, b)) :
    a.extend (List.replicate n 0) = .ok b := by
  unfold allocate at h
  split at h
  next hroom =>
    cases h
    rw [extend, List.length_replicate, if_pos hroom]
  · cases h

theorem Fits.truncate (h : a.Fits) (offset : Nat) : (a.truncate offset).Fits := by
  have hle : (a.truncate offset).cursor ≤ a.cursor := by
    rw [← length_contents, contents_truncate, List.length_take, length_contents]
    exact Nat.min_le_right _ _
  exact Nat.le_trans hle h

theorem Fits.overwrite (h : a.Fits) {span : Span} {byte : Nat → UInt8}
    (hover : a.overwrite? span byte = some b) : b.Fits := by
  unfold overwrite? at hover
  split at hover
  · cases hover
    simp only [Fits, cursor, Array.size_mapIdx]
    exact h
  · cases hover

theorem Fits.act (h : a.Fits) (action : Action) : (a.act action).Fits := by
  cases action with
  | allocate n =>
      cases hwrite : a.allocate n with
      | error o => simpa only [Arena.act, hwrite] using h
      | ok written => simpa only [Arena.act, hwrite] using h.extend (extend_of_allocate hwrite)
  | push byte =>
      cases hwrite : a.push byte with
      | error o => simpa only [Arena.act, hwrite] using h
      | ok written => simpa only [Arena.act, hwrite] using h.extend hwrite
  | extend bytes =>
      cases hwrite : a.extend bytes with
      | error o => simpa only [Arena.act, hwrite] using h
      | ok written => simpa only [Arena.act, hwrite] using h.extend hwrite
  | truncate offset => exact h.truncate offset
  | reset => exact fits_empty rfl
  | overwrite span byte =>
      cases hover : a.overwrite? span byte with
      | none => simpa only [Arena.act, hover, Option.getD_none] using h
      | some written => simpa only [Arena.act, hover, Option.getD_some] using h.overwrite hover

theorem Fits.foldl (h : a.Fits) (actions : List Action) : (actions.foldl Arena.act a).Fits := by
  induction actions generalizing a with
  | nil => exact h
  | cons action actions ih => exact ih (h.act action)

theorem fits_run (capacity : Nat) (actions : List Action) : (run capacity actions).Fits :=
  Fits.foldl (fits_empty rfl) actions

end Intake.Arena
