import Intake.Proofs.Record.Nest

/-!
# Skipping with a stack of brackets

The open brackets of a skipped value are kept in a word and a depth. Here they are kept in a list, which
has no bound of its own: a bracket that is opened is put on top, one that is closed has to be of the
kind on top, and the depth is the length of the list. Nothing is left over from a level that was closed.

Both ways of skipping come to the same, for every input and every limit that a word has bits for. The
value is too deep just when the list is as long as the limit where one more bracket is opened.
-/

namespace Intake.Record

namespace Stack

/-- The brackets that stay open when one of this kind is closed. -/
def pop? (bracket : Bracket) : List Bracket → Option (List Bracket)
  | [] => none
  | innermost :: outer => if innermost = bracket then some outer else none

/-- Steps over one token within the open brackets, the first of which is innermost, and returns those
that are open after it. -/
def skipToken (limit : Nat) (opened : List Bracket) (c : Cursor) : Read (List Bracket) :=
  match c.rest with
  | [] => .error (.incomplete 1)
  | b :: _ =>
    if b = Byte.quote then
      match rawString c with
      | .error why => .error why
      | .ok (_, d) => .ok (opened, d)
    else
      match Bracket.opened? b, Bracket.closed? b with
      | some bracket, _ =>
        if opened.length = limit then .error (.fault (.depthExceeded limit c.pos))
        else .ok (bracket :: opened, c.advance 1)
      | none, some bracket =>
        match pop? bracket opened with
        | some outer => .ok (outer, c.advance 1)
        | none => .error (.fault (.unexpectedByte b c.pos))
      | none, none =>
        if b = Byte.comma ∨ b = Byte.colon then
          if opened = [] then .error (.fault (.unexpectedByte b c.pos))
          else .ok (opened, c.advance 1)
        else
          match word c with
          | .error why => .error why
          | .ok (_, d) => .ok (opened, d)

variable {limit l o : Nat} {opened opened' last : List Bracket} {c d e : Cursor}

/-- A bracket stands here that would be one more than the limit. -/
def Full (limit : Nat) (opened : List Bracket) (c : Cursor) : Prop :=
  opened.length = limit ∧ ∃ b rest, c.rest = b :: rest ∧ (Bracket.opened? b).isSome

/-- What a token can come to. -/
inductive Token (limit : Nat) (opened : List Bracket) (c : Cursor) : Read (List Bracket) → Prop
  | tooDeep (h : Full limit opened c) :
      Token limit opened c (.error (.fault (.depthExceeded limit c.pos)))
  | stop {why : Stop} (h : ¬ Full limit opened c)
      (hwhy : ∀ l o, why ≠ .fault (.depthExceeded l o)) : Token limit opened c (.error why)
  | step {opened' : List Bracket} {d : Cursor} (h : ¬ Full limit opened c)
      (hless : d.rest.length < c.rest.length) : Token limit opened c (.ok (opened', d))

theorem not_full_of_opened? {b : UInt8} {rest : Bytes} (hc : c.rest = b :: rest)
    (hb : Bracket.opened? b = none) : ¬ Full limit opened c := by
  rintro ⟨-, a, tail, ha, hopens⟩
  rw [hc] at ha
  cases ha
  rw [hb] at hopens
  cases hopens

theorem expect_ne_depthExceeded (b : UInt8) (c : Cursor) :
    expect b c ≠ .error (.fault (.depthExceeded l o)) := by
  unfold expect
  split
  · simp
  · split <;> simp

theorem rawString_ne_depthExceeded (c : Cursor) :
    rawString c ≠ .error (.fault (.depthExceeded l o)) := by
  unfold rawString
  split
  next why hexpect =>
    intro h
    cases h
    exact expect_ne_depthExceeded _ _ hexpect
  · split <;> simp

theorem word_ne_depthExceeded (c : Cursor) : word c ≠ .error (.fault (.depthExceeded l o)) := by
  simp only [word]
  split
  · simp
  · split <;> simp

theorem token_skipToken (limit : Nat) (opened : List Bracket) (c : Cursor) :
    Token limit opened c (skipToken limit opened c) := by
  unfold skipToken
  split
  next hc =>
    refine .stop ?_ (by simp)
    rintro ⟨-, b, rest, hcons, -⟩
    rw [hc] at hcons
    cases hcons
  next b rest hc =>
    have hone := Cursor.length_advance_one_lt hc
    split
    next hquote =>
      have hnot : ¬ Full limit opened c := not_full_of_opened? hc (by rw [hquote]; rfl)
      split
      next why hraw =>
        refine .stop hnot fun l o heq => ?_
        rw [heq] at hraw
        exact rawString_ne_depthExceeded c hraw
      next hraw => exact .step hnot (reaches_of_rawString hraw).2
    split
    next bracket hopen =>
      split
      next hfull => exact .tooDeep ⟨hfull, b, rest, hc, by rw [hopen]; rfl⟩
      next hfull => exact .step (fun h => hfull h.1) hone
    next hopen hclose =>
      have hnot : ¬ Full limit opened c := not_full_of_opened? hc hopen
      split
      · exact .step hnot hone
      · exact .stop hnot (by simp)
    next hopen hclose =>
      have hnot : ¬ Full limit opened c := not_full_of_opened? hc hopen
      split
      · split
        · exact .stop hnot (by simp)
        · exact .step hnot hone
      split
      next why hword =>
        refine .stop hnot fun l o heq => ?_
        rw [heq] at hword
        exact word_ne_depthExceeded c hword
      next hword => exact .step hnot (reaches_of_word hword).2

theorem length_lt_of_skipToken (h : skipToken limit opened c = .ok (opened', d)) :
    d.rest.length < c.rest.length := by
  have htoken := token_skipToken limit opened c
  rw [h] at htoken
  cases htoken with
  | step _ hless => exact hless

/-- Steps over tokens until no bracket is open. -/
def skipWithin (limit : Nat) (opened : List Bracket) (c : Cursor) : Read Unit :=
  match h : skipToken limit opened c.skipSpace with
  | .error why => .error why
  | .ok (opened', d) =>
    have := length_lt_of_skipToken h
    if opened' = [] then .ok ((), d) else skipWithin limit opened' d
termination_by c.rest.length
decreasing_by exact Nat.lt_of_lt_of_le this c.reaches_skipSpace.length_le

theorem skipWithin_eq (limit : Nat) (opened : List Bracket) (c : Cursor) :
    skipWithin limit opened c =
      match skipToken limit opened c.skipSpace with
      | .error why => .error why
      | .ok (opened', d) => if opened' = [] then .ok ((), d) else skipWithin limit opened' d := by
  rw [skipWithin]
  split <;> simp only [*]

/-! ### The limit -/

/-- The places at which a token is read, and the brackets that are open there. -/
inductive Visits (limit : Nat) : List Bracket → Cursor → List Bracket → Cursor → Prop
  | here (opened : List Bracket) (c : Cursor) : Visits limit opened c opened c
  | next {opened opened' last : List Bracket} {c d e : Cursor}
      (htoken : skipToken limit opened c = .ok (opened', d)) (hmore : opened' ≠ [])
      (h : Visits limit opened' d.skipSpace last e) : Visits limit opened c last e

theorem Full.skipToken (h : Full limit opened c) :
    skipToken limit opened c = .error (.fault (.depthExceeded limit c.pos)) := by
  have htoken := token_skipToken limit opened c
  generalize Stack.skipToken limit opened c = answer at htoken ⊢
  cases htoken with
  | tooDeep => rfl
  | stop hnot => exact absurd h hnot
  | step hnot => exact absurd h hnot

theorem full_of_depthExceeded (h : skipToken limit opened c = .error (.fault (.depthExceeded l o))) :
    Full limit opened c ∧ l = limit ∧ o = c.pos := by
  have htoken := token_skipToken limit opened c
  rw [h] at htoken
  cases htoken with
  | tooDeep hfull => exact ⟨hfull, rfl, rfl⟩
  | stop _ hwhy => exact absurd rfl (hwhy l o)

/-- A value is too deep where the limit is reached and a bracket follows, and nowhere else. -/
theorem skipWithin_eq_depthExceeded_iff :
    skipWithin limit opened c = .error (.fault (.depthExceeded l o)) ↔
      l = limit ∧ ∃ last e, Visits limit opened c.skipSpace last e ∧ Full limit last e ∧ o = e.pos := by
  fun_induction skipWithin limit opened c with
  | case1 opened c why hstop =>
      constructor
      · intro h
        cases h
        obtain ⟨hfull, rfl, rfl⟩ := full_of_depthExceeded hstop
        exact ⟨rfl, _, _, .here _ _, hfull, rfl⟩
      · rintro ⟨rfl, last, e, hvisits, hfull, rfl⟩
        cases hvisits with
        | here =>
            cases hstop.symm.trans hfull.skipToken
            rfl
        | next htoken => cases hstop.symm.trans htoken
  | case2 opened c d htoken =>
      refine ⟨fun h => (by cases h), ?_⟩
      rintro ⟨rfl, last, e, hvisits, hfull, rfl⟩
      cases hvisits with
      | here => cases htoken.symm.trans hfull.skipToken
      | next htoken' hmore =>
          cases htoken.symm.trans htoken'
          exact absurd rfl hmore
  | case3 opened c opened' d htoken _ hmore ih =>
      rw [ih]
      refine and_congr_right fun _ => ⟨?_, ?_⟩
      · rintro ⟨last, e, hvisits, hend⟩
        exact ⟨last, e, .next htoken hmore hvisits, hend⟩
      · rintro ⟨last, e, hvisits, hfull, ho⟩
        cases hvisits with
        | here => cases htoken.symm.trans hfull.skipToken
        | next htoken' _ hvisits =>
            cases htoken.symm.trans htoken'
            exact ⟨last, e, hvisits, hfull, ho⟩

end Stack

namespace Nest

variable {limit : Nat} {nest : Nest} {opened : List Bracket}

/-! ### One token -/

/-- The same answer of both, with the same brackets open. -/
inductive Alike (limit : Nat) : Read Nest → Read (List Bracket) → Prop
  | stop (why : Stop) : Alike limit (.error why) (.error why)
  | step {nest : Nest} {opened : List Bracket} (h : nest.Tracks opened)
      (hopened : opened.length ≤ limit) (d : Cursor) : Alike limit (.ok (nest, d)) (.ok (opened, d))

theorem Alike.eq_error {why : Stop} {answer : Read (List Bracket)}
    (h : Alike limit (.error why) answer) : answer = .error why := by
  cases h
  rfl

theorem Alike.exists_ok {d : Cursor} {answer : Read (List Bracket)}
    (h : Alike limit (.ok (nest, d)) answer) :
    ∃ opened, answer = .ok (opened, d) ∧ nest.Tracks opened ∧ opened.length ≤ limit := by
  cases h with
  | step h hopened => exact ⟨_, rfl, h, hopened⟩

theorem Tracks.depth_eq_zero_iff (h : nest.Tracks opened) : nest.depth = 0 ↔ opened = [] := by
  rw [h.depth, List.length_eq_zero_iff]

/-- A bracket that is closed is compared with the one that was opened last, whatever was open at its
level before. -/
theorem Tracks.pop? (h : nest.Tracks opened) (bracket : Bracket) :
    match Stack.pop? bracket opened with
    | some outer => nest.innermost? = some bracket ∧ nest.leave.Tracks outer
    | none => nest.innermost? ≠ some bracket := by
  cases opened with
  | nil =>
      have hdepth : nest.depth = 0 := h.depth
      rw [Stack.pop?, Nest.innermost?, if_pos hdepth]
      exact (Option.some_ne_none _).symm
  | cons innermost outer =>
      rw [Stack.pop?, h.innermost?]
      by_cases hkind : innermost = bracket
      · rw [if_pos hkind, hkind]
        exact ⟨rfl, h.leave⟩
      · rw [if_neg hkind]
        exact fun heq => hkind (Option.some.inj heq)

/-- One token keeps the word and the list in step. -/
theorem Tracks.skipToken (h : nest.Tracks opened) (hlimit : limit ≤ maxDepth)
    (hopened : opened.length ≤ limit) (c : Cursor) :
    Alike limit (Record.skipToken limit nest c) (Stack.skipToken limit opened c) := by
  unfold Record.skipToken Stack.skipToken
  cases c.rest with
  | nil => exact .stop _
  | cons b rest =>
      dsimp only
      by_cases hquote : b = Byte.quote
      · rw [if_pos hquote, if_pos hquote]
        cases rawString c with
        | error why => exact .stop why
        | ok answer => exact .step h hopened answer.2
      rw [if_neg hquote, if_neg hquote]
      cases hopen : Bracket.opened? b with
      | some bracket =>
          dsimp only
          rw [h.depth]
          by_cases hfull : opened.length = limit
          · rw [if_pos hfull, if_pos hfull]
            exact .stop _
          · have hroom : opened.length < limit := Nat.lt_of_le_of_ne hopened hfull
            have hbits : nest.depth < maxDepth := by
              rw [h.depth]
              omega
            rw [if_neg hfull, if_neg hfull]
            exact .step (h.enter hbits bracket) hroom _
      | none =>
          cases hclose : Bracket.closed? b with
          | some bracket =>
              dsimp only
              have hpop := h.pop? bracket
              cases houter : Stack.pop? bracket opened with
              | some outer =>
                  rw [houter] at hpop
                  have hless : nest.depth - 1 = outer.length := hpop.2.depth
                  rw [h.depth] at hless
                  rw [if_pos hpop.1]
                  exact .step hpop.2 (by omega) _
              | none =>
                  rw [houter] at hpop
                  rw [if_neg hpop]
                  exact .stop _
          | none =>
              dsimp only
              simp only [h.depth_eq_zero_iff]
              split
              · split
                · exact .stop _
                · exact .step h hopened _
              · cases word c with
                | error why => exact .stop why
                | ok answer => exact .step h hopened answer.2

/-! ### Values -/

theorem Tracks.skipWithin (h : nest.Tracks opened) (hlimit : limit ≤ maxDepth)
    (hopened : opened.length ≤ limit) (c : Cursor) :
    Record.skipWithin limit nest c = Stack.skipWithin limit opened c := by
  fun_induction Record.skipWithin limit nest c generalizing opened with
  | case1 nest c why hstop =>
      have halike := h.skipToken hlimit hopened c.skipSpace
      rw [hstop] at halike
      rw [Stack.skipWithin_eq, halike.eq_error]
  | case2 nest c nest' d htoken _ hdone =>
      have halike := h.skipToken hlimit hopened c.skipSpace
      rw [htoken] at halike
      obtain ⟨opened', hstack, htracks, -⟩ := halike.exists_ok
      rw [Stack.skipWithin_eq, hstack]
      exact (if_pos (htracks.depth_eq_zero_iff.1 hdone)).symm
  | case3 nest c nest' d htoken _ hmore ih =>
      have halike := h.skipToken hlimit hopened c.skipSpace
      rw [htoken] at halike
      obtain ⟨opened', hstack, htracks, hopened'⟩ := halike.exists_ok
      have hmore' : opened' ≠ [] := fun hnil => hmore (htracks.depth_eq_zero_iff.2 hnil)
      rw [Stack.skipWithin_eq, hstack]
      exact (ih htracks hopened').trans (if_neg hmore').symm

end Nest

/-- **A word of bits is as good as a stack.** Whatever is skipped, wherever it begins and however deep it
may nest, the bits of a word and the list of the open brackets lead to the same place, or to the same
fault at the same offset. The value is found too deep where a bracket is opened within as many as the
limit, and only there. -/
theorem skipValue_eq_stack (maxNesting : Nat) (c : Cursor) :
    let limit := max 1 (min maxNesting 64)
    skipValue maxNesting c = Stack.skipWithin limit [] c ∧
      ∀ l o, skipValue maxNesting c = .error (.fault (.depthExceeded l o)) ↔ l = limit ∧
        ∃ opened d, Stack.Visits limit [] c.skipSpace opened d ∧ Stack.Full limit opened d ∧
          o = d.pos := by
  intro limit
  have hlimit : limit ≤ Nest.maxDepth := by
    simp only [limit, Nest.maxDepth]
    omega
  have hsame : skipValue maxNesting c = Stack.skipWithin limit [] c :=
    Nest.tracks_nil.skipWithin hlimit (Nat.zero_le _) c
  refine ⟨hsame, fun l o => ?_⟩
  rw [hsame]
  exact Stack.skipWithin_eq_depthExceeded_iff

end Intake.Record
