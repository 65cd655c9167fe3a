import Intake.Proofs.Record.Steady.Token

/-!
# Skipped values are steady

A skipped value opens and closes the brackets of the input one by one, so a fence around it counts its
open brackets on top of those that were open before.
-/

namespace Intake.Record

variable {F : Fence}

/-! ### Brackets as bytes -/

theorem opens_of_opened? {b : UInt8} {bracket : Bracket} (h : Bracket.opened? b = some bracket) :
    Stream.opens b := by
  unfold Bracket.opened? at h
  split at h
  next hb => exact hb ▸ rfl
  split at h
  next hb => exact hb ▸ rfl
  · cases h

theorem closes_of_closed? {b : UInt8} {bracket : Bracket} (h : Bracket.closed? b = some bracket) :
    Stream.closes b := by
  unfold Bracket.closed? at h
  split at h
  next hb => exact hb ▸ rfl
  split at h
  next hb => exact hb ▸ rfl
  · cases h

theorem not_opens_of_opened? {b : UInt8} (h : Bracket.opened? b = none) : !Stream.opens b := by
  unfold Bracket.opened? at h
  split at h
  · cases h
  next hbrace =>
    split at h
    · cases h
    next hsquare => simp [Stream.opens, hbrace, hsquare]

@[simp] theorem Nest.depth_enter (n : Nest) (bracket : Bracket) :
    (n.enter bracket).depth = n.depth + 1 := rfl

@[simp] theorem Nest.depth_leave (n : Nest) : n.leave.depth = n.depth - 1 := rfl

theorem Nest.depth_pos {n : Nest} {bracket : Bracket} (h : n.innermost? = some bracket) :
    0 < n.depth := by
  unfold innermost? at h
  split at h
  · cases h
  · omega

/-! ### Bare words -/

theorem steady_word {c : Cursor} {b : UInt8} {rest : Bytes} (hc : c.rest = b :: rest)
    (hb : !Stream.opens b) : SteadyAnswer F 1 1 word c (word c) := by
  cases hafter : (c.skipWhile fun b => !endsWord b).rest with
  | nil =>
      simp only [word, hafter]
      refine .incomplete Nat.one_pos fun k hk => ?_
      cases hend : endsWord b with
      | true =>
          rw [Cursor.skipWhile_of_neg hc (by simp [hend])] at hafter
          exact F.rest_ne_nil hk hafter
      | false => exact F.rest_ne_nil (F.word hk hc hb (by simp [hend])) hafter
  | cons a tail =>
      have hskip := Cursor.append_skipWhile (c := c) (p := fun b => !endsWord b)
        (by rw [hafter]; exact List.cons_ne_nil a tail)
      have hmore : ∀ more, word (c.append more) =
          if (c.skipWhile fun b => !endsWord b).pos = c.pos then
            .error (.fault (.unexpectedByte a c.pos))
          else .ok ((), (c.skipWhile fun b => !endsWord b).append more) := fun more => by
        simp only [word, hskip, Cursor.rest_append, hafter, List.cons_append, Cursor.pos_append]
      simp only [word, hafter]
      by_cases hpos : (c.skipWhile fun b => !endsWord b).pos = c.pos
      · simp only [if_pos hpos] at hmore ⊢
        exact .fixed hmore
      · simp only [if_neg hpos] at hmore ⊢
        refine .ok hmore fun k hk => ?_
        cases hend : endsWord b with
        | true => exact absurd (by rw [Cursor.skipWhile_of_neg hc (by simp [hend])]) hpos
        | false => exact F.word hk hc hb (by simp [hend])

/-! ### Tokens and values -/

variable {limit : Nat} {nest : Nest} {c : Cursor}

/-- A token changes the number of open brackets by as much as it changes the nest. -/
def SteadyToken (F : Fence) (limit : Nat) (nest : Nest) (c : Cursor) : Prop :=
  ∃ j, SteadyAnswer F (nest.depth + 1) j (skipToken limit nest) c (skipToken limit nest c) ∧
    ∀ nest' d, skipToken limit nest c = .ok (nest', d) → j = nest'.depth + 1

theorem SteadyToken.fault {e : Fault}
    (hmore : ∀ more, skipToken limit nest (c.append more) = .error (.fault e)) :
    SteadyToken F limit nest c := by
  have hc := hmore []
  rw [Cursor.append_nil] at hc
  refine ⟨0, ?_, fun nest' d h => ?_⟩
  · rw [hc]
    exact .fixed hmore
  · rw [hc] at h
    cases h

theorem SteadyToken.step {nest' : Nest} {d : Cursor}
    (hmore : ∀ more, skipToken limit nest (c.append more) = .ok (nest', d.append more))
    (hin : ∀ k, F.inside (k + nest.depth + 1) c → F.inside (k + nest'.depth + 1) d) :
    SteadyToken F limit nest c := by
  have hc := hmore []
  rw [Cursor.append_nil, Cursor.append_nil] at hc
  refine ⟨nest'.depth + 1, ?_, fun _ _ h => ?_⟩
  · rw [hc]
    exact .ok hmore hin
  · rw [hc] at h
    cases h
    rfl

theorem SteadyToken.of_read {α : Type} {f : Cursor → Read α} (hf : SteadyAnswer F 1 1 f c (f c))
    (hmore : ∀ more, skipToken limit nest (c.append more) =
      match f (c.append more) with
      | .error why => .error why
      | .ok (_, d) => .ok (nest, d)) : SteadyToken F limit nest c := by
  refine ⟨nest.depth + 1, ?_, fun nest' d h => ?_⟩
  · refine (hf.deeper nest.depth).check (fun _ _ => .ok nest) fun more => ?_
    apply (hmore more).trans
    cases f (c.append more) <;> rfl
  · have hc := hmore []
    rw [Cursor.append_nil, h] at hc
    split at hc
    · cases hc
    · cases hc
      rfl

theorem steady_skipToken (limit : Nat) (nest : Nest) (c : Cursor) : SteadyToken F limit nest c := by
  cases hc : c.rest with
  | nil =>
      refine ⟨0, ?_, fun nest' d h => ?_⟩
      · simp only [skipToken, hc]
        exact .incomplete Nat.one_pos fun k hk => F.rest_ne_nil hk hc
      · simp only [skipToken, hc] at h
        cases h
  | cons b rest =>
      have hcmore : ∀ more, (c.append more).rest = b :: (rest ++ more) := fun more => by
        rw [Cursor.rest_append, hc, List.cons_append]
      have hstep := Cursor.append_advance_one hc
      by_cases hq : b = Byte.quote
      · refine .of_read (steady_rawString c) fun more => ?_
        simp only [skipToken, hcmore, if_pos hq]
        cases rawString (c.append more) <;> rfl
      cases hopen : Bracket.opened? b with
      | some bracket =>
          by_cases hd : nest.depth = limit
          · exact .fault (e := .depthExceeded limit c.pos) fun more => by
              simp only [skipToken, hcmore, if_neg hq, hopen, if_pos hd, Cursor.pos_append]
          · have hmore : ∀ more, skipToken limit nest (c.append more) =
                .ok (nest.enter bracket, (c.advance 1).append more) := fun more => by
              simp only [skipToken, hcmore, if_neg hq, hopen, if_neg hd, hstep]
            exact .step hmore fun k hk => F.enter hk hc (opens_of_opened? hopen)
      | none =>
          cases hclose : Bracket.closed? b with
          | some bracket =>
              by_cases hin : nest.innermost? = some bracket
              · have hmore : ∀ more, skipToken limit nest (c.append more) =
                    .ok (nest.leave, (c.advance 1).append more) := fun more => by
                  simp only [skipToken, hcmore, if_neg hq, hopen, hclose, if_pos hin, hstep]
                refine .step hmore fun k hk => ?_
                rw [Nest.depth_leave, Nat.add_assoc, Nat.sub_add_cancel (Nest.depth_pos hin)]
                exact F.leave hk hc (closes_of_closed? hclose)
              · exact .fault (e := .unexpectedByte b c.pos) fun more => by
                  simp only [skipToken, hcmore, if_neg hq, hopen, hclose, if_neg hin,
                    Cursor.pos_append]
          | none =>
              by_cases hsep : b = Byte.comma ∨ b = Byte.colon
              · by_cases hd : nest.depth = 0
                · exact .fault (e := .unexpectedByte b c.pos) fun more => by
                    simp only [skipToken, hcmore, if_neg hq, hopen, hclose, if_pos hsep, if_pos hd,
                      Cursor.pos_append]
                · have hmore : ∀ more, skipToken limit nest (c.append more) =
                      .ok (nest, (c.advance 1).append more) := fun more => by
                    simp only [skipToken, hcmore, if_neg hq, hopen, hclose, if_pos hsep, if_neg hd,
                      hstep]
                  have hinert : isInert b := by rcases hsep with rfl | rfl <;> rfl
                  exact .step hmore fun k hk => F.inert hk hc hinert
              · refine .of_read (steady_word hc (not_opens_of_opened? hopen)) fun more => ?_
                simp only [skipToken, hcmore, if_neg hq, hopen, hclose, if_neg hsep]
                cases word (c.append more) <;> rfl

theorem skipToken_of_nil (h : c.rest = []) : skipToken limit nest c = .error (.incomplete 1) := by
  simp only [skipToken, h]

theorem append_skipSpace_of_skipToken {answer : Read Nest}
    (h : skipToken limit nest c.skipSpace = answer) (hne : answer ≠ .error (.incomplete 1))
    (more : Bytes) : (c.append more).skipSpace = c.skipSpace.append more := by
  cases hc : c.skipSpace.rest with
  | nil => exact absurd (h.symm.trans (skipToken_of_nil hc)) hne
  | cons b rest => exact Cursor.append_skipSpace hc more

/-- Every token keeps the nest within the brackets that were open before the value. -/
theorem steady_skipWithin (limit : Nat) (nest : Nest) (c : Cursor) :
    SteadyAnswer F (nest.depth + 1) 1 (skipWithin limit nest) c (skipWithin limit nest c) := by
  fun_induction skipWithin limit nest c with
  | case1 nest c why ht =>
      obtain ⟨j, htoken, -⟩ := steady_skipToken (F := F) limit nest c.skipSpace
      rw [ht] at htoken
      have hin : ∀ k, F.inside (k + nest.depth + 1) c → F.inside (k + nest.depth + 1) c.skipSpace :=
        fun _ => F.inside_skipSpace
      cases htoken with
      | incomplete hpos hout => exact .incomplete hpos fun k hk => hout k (hin k hk)
      | fault hmore =>
          refine .fault fun more => ?_
          obtain ⟨e', he', hgrow, hsame⟩ := hmore more
          refine ⟨e', ?_, hgrow, fun k hk => hsame k (hin k hk)⟩
          rw [skipWithin_eq, append_skipSpace_of_skipToken ht (by simp), he']
  | case2 nest c nest' d ht _ hd =>
      obtain ⟨j, htoken, hj⟩ := steady_skipToken (F := F) limit nest c.skipSpace
      have hj := hj nest' d ht
      rw [ht] at htoken
      cases htoken with
      | ok hmore hin =>
          refine .ok (fun more => ?_) fun k hk => ?_
          · rw [skipWithin_eq, append_skipSpace_of_skipToken ht (by simp), hmore]
            exact if_pos hd
          · rw [hj, hd] at hin
            exact hin k (F.inside_skipSpace (k := k + nest.depth) hk)
  | case3 nest c nest' d ht _ hd ih =>
      obtain ⟨j, htoken, hj⟩ := steady_skipToken (F := F) limit nest c.skipSpace
      have hj := hj nest' d ht
      rw [ht] at htoken
      cases htoken with
      | ok hmore hin =>
          refine ih.of_eq (fun more => ?_) fun k hk => ?_
          · rw [skipWithin_eq, append_skipSpace_of_skipToken ht (by simp), hmore]
            exact if_neg hd
          · rw [hj] at hin
            exact hin k (F.inside_skipSpace (k := k + nest.depth) hk)

theorem steady_skipValue (maxNesting : Nat) : Steady F 1 1 (skipValue maxNesting) :=
  fun c => steady_skipWithin (nestingLimit maxNesting) {} c

end Intake.Record
