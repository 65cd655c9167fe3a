import Intake.Record.Skip

/-!
# A nest is a stack of brackets

The bits of a nest stand for the brackets that are open, the innermost of which has the highest bit that
counts. Bits above it are left over from levels that were closed; entering a level writes its bit anew,
so they are never read.
-/

namespace Intake.Record

namespace Nest

variable {nest : Nest} {bracket : Bracket} {opened : List Bracket}

/-- The bits below the length of the list stand for its brackets, the first of which is innermost. -/
def Kinds (kinds : BitVec 64) : List Bracket → Prop
  | [] => True
  | bracket :: outer => kinds.getLsbD outer.length = (bracket == .brace) ∧ Kinds kinds outer

/-- The nest stands for these open brackets, the first of which is innermost. -/
structure Tracks (nest : Nest) (opened : List Bracket) : Prop where
  depth : nest.depth = opened.length
  kinds : Kinds nest.kinds opened

theorem tracks_nil : Tracks {} [] := ⟨rfl, trivial⟩

theorem getLsbD_one_shiftLeft {depth i : Nat} (hdepth : depth < maxDepth) :
    (1#64 <<< depth).getLsbD i = (i == depth) := by
  have hmax : depth < 64 := hdepth
  rw [BitVec.getLsbD_shiftLeft, BitVec.getLsbD_one, Bool.eq_iff_iff]
  simp
  omega

theorem getLsbD_enter (bracket : Bracket) (hdepth : nest.depth < maxDepth) (i : Nat) :
    (nest.enter bracket).kinds.getLsbD i =
      if i = nest.depth then bracket == .brace else nest.kinds.getLsbD i := by
  have hbit := getLsbD_one_shiftLeft (i := i) hdepth
  have hmax : nest.depth < 64 := hdepth
  cases bracket with
  | brace =>
      simp only [enter, BitVec.getLsbD_or, hbit]
      split
      next hi => simp [hi]
      next hi => simp [hi]
  | square =>
      simp only [enter, BitVec.getLsbD_and, BitVec.getLsbD_not, hbit]
      split
      next hi => simp [hi]
      next hi =>
        by_cases hin : i < 64
        · simp [hi, hin]
        · simp [BitVec.getLsbD_of_ge _ _ (Nat.le_of_not_lt hin)]

theorem Kinds.congr {kinds kinds' : BitVec 64} (h : Kinds kinds opened)
    (heq : ∀ i < opened.length, kinds'.getLsbD i = kinds.getLsbD i) : Kinds kinds' opened := by
  induction opened with
  | nil => trivial
  | cons bracket outer ih =>
      exact ⟨(heq _ (Nat.lt_succ_self _)).trans h.1,
        ih h.2 fun i hi => heq i (Nat.lt_succ_of_lt hi)⟩

theorem Tracks.enter (h : nest.Tracks opened) (hdepth : nest.depth < maxDepth)
    (bracket : Bracket) : (nest.enter bracket).Tracks (bracket :: opened) := by
  refine ⟨congrArg (· + 1) h.depth, ?_, h.kinds.congr fun i hi => ?_⟩
  · rw [getLsbD_enter bracket hdepth, if_pos h.depth.symm]
  · rw [getLsbD_enter bracket hdepth, if_neg (by rw [h.depth]; omega)]

theorem Tracks.leave (h : nest.Tracks (bracket :: opened)) : nest.leave.Tracks opened :=
  ⟨by rw [Nest.leave, h.depth]; rfl, h.kinds.2⟩

theorem Tracks.innermost? (h : nest.Tracks (bracket :: opened)) :
    nest.innermost? = some bracket := by
  have hdepth : nest.depth = opened.length + 1 := h.depth
  simp only [Nest.innermost?, hdepth, if_neg (Nat.succ_ne_zero _), Nat.add_sub_cancel, h.kinds.1]
  cases bracket <;> rfl

end Nest

end Intake.Record
