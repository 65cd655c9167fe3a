import Intake.Arena

/-!
# Options and progress

What both decoders can be told, and what both report about an input that has no fault.
-/

namespace Intake

structure Options where
  /-- The capacity of each arena. -/
  arenaCapacity : Nat := Arena.defaultCapacity
  /-- How deep a skipped value may nest, between 1 and 64. -/
  maxNesting : Nat := 64
  /-- Whether an escaped surrogate pair is one code point. -/
  combineSurrogates : Bool := true
deriving DecidableEq

/-- How far a decoder came. -/
inductive Progress where
  /-- Everything was found, in the first `consumed` bytes. -/
  | complete (consumed : Nat)
  /-- The input ends too early, by at least `missing` bytes. -/
  | incomplete (missing : Nat)
deriving DecidableEq

instance decidableEqExcept {ε α : Type} [DecidableEq ε] [DecidableEq α] :
    DecidableEq (Except ε α)
  | .ok a, .ok b => decidable_of_iff (a = b) (by simp)
  | .error e, .error f => decidable_of_iff (e = f) (by simp)
  | .ok _, .error _ => .isFalse (by simp)
  | .error _, .ok _ => .isFalse (by simp)

end Intake
