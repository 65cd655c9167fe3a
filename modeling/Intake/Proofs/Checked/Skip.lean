import Intake.Proofs.Checked.Token
import Intake.Proofs.Record.Nest

/-!
# Skipped values by position

A bracket that is entered sets the bit of its level or clears it, one that is left is compared with the
bit below. Both shift a word by the depth, which the limit keeps below the width of the word: the depth
of a nest never exceeds the limit, and at the limit nothing is entered.
-/

namespace Intake.Checked

open Record (Bracket Nest)

variable {input : Bytes} {nest : Nest} {limit p : Nat}

/-! ### Levels -/

def enter (nest : Nest) (bracket : Bracket) : Checked Nest := do
  let level ← bit nest.depth
  let kinds :=
    match bracket with
    | .brace => nest.kinds ||| level
    | .square => nest.kinds &&& ~~~level
  return ⟨kinds, nest.depth + 1⟩

/-- The bracket that opened the innermost of some levels. -/
def innermost (nest : Nest) : Checked Bracket := do
  let level ← bit (← difference nest.depth 1)
  return if nest.kinds &&& level = 0 then .square else .brace

def leave (nest : Nest) : Checked Nest := do
  return { nest with depth := ← difference nest.depth 1 }

theorem enter_eq (hdepth : nest.depth < Nest.maxDepth) (bracket : Bracket) :
    enter nest bracket = .ok (nest.enter bracket) := by
  rw [enter, bit_of_lt hdepth]
  cases bracket <;> rfl

/-- At the width of the word nothing can be entered. -/
example : enter ⟨0, Nest.maxDepth⟩ .brace = .error .shift := rfl

theorem and_bit_eq_zero_iff (kinds : BitVec 64) {i : Nat} (hi : i < Nest.maxDepth) :
    kinds &&& 1#64 <<< i = 0 ↔ kinds.getLsbD i = false := by
  constructor
  · intro h
    have hbit := congrArg (BitVec.getLsbD · i) h
    simpa [BitVec.getLsbD_and, Nest.getLsbD_one_shiftLeft hi] using hbit
  · intro h
    refine BitVec.eq_of_getLsbD_eq fun j _ => ?_
    rw [BitVec.getLsbD_and, Nest.getLsbD_one_shiftLeft hi]
    by_cases hj : j = i
    · simp [hj, h]
    · simp [hj]

theorem innermost_eq (hpos : nest.depth ≠ 0) (hdepth : nest.depth ≤ Nest.maxDepth) :
    ∃ bracket, innermost nest = .ok bracket ∧ nest.innermost? = some bracket := by
  have hlevel : nest.depth - 1 < Nest.maxDepth := by omega
  refine ⟨_, ?_, if_neg hpos⟩
  rw [innermost, difference_of_le (Nat.one_le_iff_ne_zero.2 hpos), ok_bind, bit_of_lt hlevel, ok_bind]
  cases hbit : nest.kinds.getLsbD (nest.depth - 1) with
  | false =>
      rw [if_pos ((and_bit_eq_zero_iff nest.kinds hlevel).2 hbit)]
      rfl
  | true =>
      have hne : ¬ nest.kinds &&& 1#64 <<< (nest.depth - 1) = 0 := fun h =>
        Bool.false_ne_true (((and_bit_eq_zero_iff nest.kinds hlevel).1 h).symm.trans hbit)
      rw [if_neg hne]
      rfl

theorem leave_eq (hpos : nest.depth ≠ 0) : leave nest = .ok nest.leave := by
  rw [leave, difference_of_le (Nat.one_le_iff_ne_zero.2 hpos)]
  rfl

/-! ### Values -/

/-- A bare word. The byte in front of which there is none is looked up once more. -/
def word (input : Bytes) (p : Nat) : Checked (Found Unit) := do
  let stop := skipWhile (fun b => !Record.endsWord b) input p
  if stop = input.length then return .error (.incomplete 1)
  else if stop = p then return .error (.fault (.unexpectedByte (← byte input p) p))
  else return .ok ((), stop)

theorem runs_word (input : Bytes) : Runs input (word input) Record.word := by
  intro p hp
  obtain ⟨stop, hstop⟩ : ∃ stop, skipWhile (fun b => !Record.endsWord b) input p = stop := ⟨_, rfl⟩
  have hafter := skipWhile_within (fun b => !Record.endsWord b) input p
  have hle : stop ≤ input.length := hstop ▸ skipWhile_le hp
  rw [hstop] at hafter
  simp only [word, Record.word, hstop, hafter]
  cases hbyte : input[stop]? with
  | none =>
      rw [Cursor.rest_within_of_none hbyte,
        if_pos (Nat.le_antisymm hle (List.getElem?_eq_none_iff.1 hbyte))]
      rfl
  | some b =>
      have hlt := (List.getElem?_eq_some_iff.1 hbyte).1
      rw [Cursor.rest_within_of_getElem? hbyte, if_neg (Nat.ne_of_lt hlt)]
      dsimp only
      by_cases hempty : stop = p
      · subst hempty
        rw [if_pos rfl, if_pos rfl, byte_of_getElem? hbyte]
        rfl
      · have hempty' : ¬ (Cursor.within input stop).pos = (Cursor.within input p).pos := hempty
        rw [if_neg hempty, if_neg hempty']
        rfl

/-- Steps over one token within the open brackets `nest`. -/
def skipToken (limit : Nat) (input : Bytes) (nest : Nest) (p : Nat) : Checked (Found Nest) := do
  match input[p]? with
  | none => return .error (.incomplete 1)
  | some b =>
    if b = Byte.quote then
      match ← rawString input p with
      | .error why => return .error why
      | .ok (_, stop) => return .ok (nest, stop)
    else
      match Bracket.opened? b, Bracket.closed? b with
      | some bracket, _ =>
        if nest.depth = limit then return .error (.fault (.depthExceeded limit p))
        else return .ok (← enter nest bracket, p + 1)
      | none, some bracket =>
        if nest.depth = 0 then return .error (.fault (.unexpectedByte b p))
        else if (← innermost nest) = bracket then return .ok (← leave nest, p + 1)
        else return .error (.fault (.unexpectedByte b p))
      | none, none =>
        if b = Byte.comma ∨ b = Byte.colon then
          if nest.depth = 0 then return .error (.fault (.unexpectedByte b p))
          else return .ok (nest, p + 1)
        else
          match ← word input p with
          | .error why => return .error why
          | .ok (_, stop) => return .ok (nest, stop)

theorem runs_skipToken (hdepth : nest.depth ≤ limit) (hlimit : limit ≤ Nest.maxDepth) (input : Bytes) :
    Runs input (skipToken limit input nest) (Record.skipToken limit nest) := by
  intro p hp
  rw [skipToken, Record.skipToken]
  cases hbyte : input[p]? with
  | none =>
      rw [Cursor.rest_within_of_none hbyte]
      rfl
  | some b =>
      rw [Cursor.rest_within_of_getElem? hbyte]
      dsimp only
      by_cases hquote : b = Byte.quote
      · rw [if_pos hquote, if_pos hquote, runs_rawString input p hp, ok_bind]
        cases Record.rawString (.within input p) <;> rfl
      rw [if_neg hquote, if_neg hquote]
      cases hopened : Bracket.opened? b with
      | some bracket =>
          dsimp only
          by_cases hfull : nest.depth = limit
          · rw [if_pos hfull, if_pos hfull]
            rfl
          · rw [if_neg hfull, if_neg hfull, enter_eq (by omega)]
            rfl
      | none =>
          cases hclosed : Bracket.closed? b with
          | some bracket =>
              dsimp only
              by_cases hnone : nest.depth = 0
              · have hinnermost : nest.innermost? ≠ some bracket := by
                  rw [Nest.innermost?, if_pos hnone]
                  exact (Option.some_ne_none _).symm
                rw [if_pos hnone, if_neg hinnermost]
                rfl
              · obtain ⟨opener, hcode, hinnermost⟩ :=
                  innermost_eq hnone (Nat.le_trans hdepth hlimit)
                rw [if_neg hnone, hcode, ok_bind, hinnermost]
                by_cases hmatch : opener = bracket
                · rw [if_pos hmatch, if_pos (congrArg some hmatch), leave_eq hnone]
                  rfl
                · rw [if_neg hmatch, if_neg fun h => hmatch (Option.some.inj h)]
                  rfl
          | none =>
              dsimp only
              split
              · split <;> rfl
              · rw [runs_word input p hp, ok_bind]
                cases Record.word (.within input p) <;> rfl

theorem depth_le_of_skipToken {nest' : Nest} {c d : Cursor} (hdepth : nest.depth ≤ limit)
    (h : Record.skipToken limit nest c = .ok (nest', d)) : nest'.depth ≤ limit := by
  unfold Record.skipToken at h
  repeat' split at h
  all_goals simp only [reduceCtorEq, Except.ok.injEq, Prod.mk.injEq] at h
  all_goals obtain ⟨rfl, -⟩ := h
  · exact hdepth
  · simp only [Nest.enter]
    omega
  · simp only [Nest.leave]
    omega
  · exact hdepth
  · exact hdepth

/-- Steps over tokens until no bracket is open. -/
def skipWithin (limit : Nat) (input : Bytes) (nest : Nest) (p : Nat) : Checked (Found Unit) :=
  match skipToken limit input nest (skipSpace input p) with
  | .error trap => .error trap
  | .ok (.error why) => .ok (.error why)
  | .ok (.ok (nest', stop)) =>
    if nest'.depth = 0 then .ok (.ok ((), stop))
    else if input.length - stop < input.length - p then skipWithin limit input nest' stop
    else .error .loop
termination_by input.length - p

theorem runs_skipWithin (hdepth : nest.depth ≤ limit) (hlimit : limit ≤ Nest.maxDepth)
    (input : Bytes) : Runs input (skipWithin limit input nest) (Record.skipWithin limit nest) := by
  intro p hp
  obtain ⟨c, hc⟩ : ∃ c, Cursor.within input p = c := ⟨_, rfl⟩
  rw [hc]
  fun_induction Record.skipWithin limit nest c generalizing p with
  | case1 nest c why hstop =>
      subst hc
      rw [skipSpace_within] at hstop
      rw [skipWithin, (runs_skipToken hdepth hlimit input).error (skipSpace_le hp) hstop]
      rfl
  | case2 nest c nest' d htoken hlt hzero =>
      subst hc
      rw [skipSpace_within] at htoken
      obtain ⟨hcode, -⟩ := (runs_skipToken hdepth hlimit input).ok (skipSpace_le hp)
        (fun _ _ _ h => (Record.reaches_of_skipToken h).1) htoken
      rw [skipWithin, hcode]
      exact if_pos hzero
  | case3 nest c nest' d htoken hlt hzero ih =>
      subst hc
      have hless := Nat.lt_of_lt_of_le hlt (Cursor.reaches_skipSpace _).length_le
      have hdepth' := depth_le_of_skipToken hdepth htoken
      rw [skipSpace_within] at htoken
      obtain ⟨hcode, hd, hle⟩ := (runs_skipToken hdepth hlimit input).ok (skipSpace_le hp)
        (fun _ _ _ h => (Record.reaches_of_skipToken h).1) htoken
      rw [hd, Cursor.rest_within, Cursor.rest_within, List.length_drop, List.length_drop] at hless
      rw [skipWithin, hcode]
      dsimp only
      rw [if_neg hzero, if_pos hless]
      exact ih hdepth' d.pos hle hd.symm

/-- Steps over a value that nests no deeper than asked for. -/
def skipValue (maxNesting : Nat) (input : Bytes) (p : Nat) : Checked (Found Unit) :=
  skipWithin (Record.nestingLimit maxNesting) input {} p

theorem runs_skipValue (maxNesting : Nat) (input : Bytes) :
    Runs input (skipValue maxNesting input) (Record.skipValue maxNesting) :=
  runs_skipWithin (Nat.zero_le _) (by simp only [Record.nestingLimit, Nest.maxDepth]; omega) input

end Intake.Checked
