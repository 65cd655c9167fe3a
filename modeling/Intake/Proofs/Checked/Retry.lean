import Intake.Proofs.Checked.Quoted

/-!
# Strings that arrive in pieces

A string is written to the arena while it is read, so there are bytes to take back when the input ends
too early or a fault is found. A call that decodes nothing leaves its site as it found it, so calls in a
row may share one: whatever came before, the last of them does what it would have done alone. What it
finds in a shorter input it finds in a longer one.
-/

namespace Intake

theorem Cursor.within_append {input : Bytes} {p : Nat} (hp : p ≤ input.length) (more : Bytes) :
    within (input ++ more) p = (within input p).append more := by
  rw [within, within, append, List.drop_append_of_le_length hp]

namespace Checked

open Record (Stop Fault)

/-- The place of a string in an input, and the arena it is to be decoded into. -/
structure Site where
  pos : Nat
  arena : Arena
deriving DecidableEq

/-- A call: its input, its answer, and the site as it leaves it. -/
structure Attempt where
  input : Bytes
  answer : Except Stop Span
  site : Site
deriving DecidableEq

/-- The input ended before anything was decoded. -/
def Attempt.isIncomplete (a : Attempt) : Bool :=
  match a.answer with
  | .error (.incomplete _) => true
  | _ => false

/-- Decodes the string at a site, which a string that is decoded moves on. -/
def attempt (combineSurrogates : Bool) (s : Site) (input : Bytes) : Checked Attempt := do
  match ← quoted combineSurrogates input s.arena s.pos with
  | (.ok (span, p), written) => return ⟨input, .ok span, ⟨p, written⟩⟩
  | (.error why, written) => return ⟨input, .error why, ⟨s.pos, written⟩⟩

/-- Calls on one input after the other, each from the site that the last one left, until one of them does
not find its input incomplete. The last of the calls is returned. -/
def retry (combineSurrogates : Bool) (s : Site) : List Bytes → Bytes → Checked Attempt
  | [], last => attempt combineSurrogates s last
  | input :: later, last => do
    let a ← attempt combineSurrogates s input
    if a.isIncomplete then retry combineSurrogates a.site later last else return a

/-- The same answer, but that an overflow may be larger. -/
inductive Agrees : Except Stop Span → Except Stop Span → Prop
  | same (answer : Except Stop Span) : Agrees answer answer
  | fault {e e' : Fault} (h : e.Grows e') : Agrees (.error (.fault e)) (.error (.fault e'))

/-- The call that makes of its input what the decoder makes of it. -/
def Site.settle (s : Site) (input : Bytes) : Except Stop (Span × Arena × Cursor) → Attempt
  | .ok (span, written, after) => ⟨input, .ok span, ⟨after.pos, written⟩⟩
  | .error why => ⟨input, .error why, s⟩

variable {cs : Bool} {s : Site} {input : Bytes}

theorem input_settle (s : Site) (input : Bytes) (r : Except Stop (Span × Arena × Cursor)) :
    (s.settle input r).input = input := by
  cases r <;> rfl

theorem site_settle {r : Except Stop (Span × Arena × Cursor)} {why : Stop}
    (h : (s.settle input r).answer = .error why) : (s.settle input r).site = s := by
  cases r with
  | error why => rfl
  | ok found => cases h

theorem answer_of_isIncomplete {a : Attempt} (h : a.isIncomplete) :
    ∃ missing, a.answer = .error (.incomplete missing) := by
  unfold Attempt.isIncomplete at h
  split at h
  next missing hanswer => exact ⟨missing, hanswer⟩
  · cases h

/-- A call answers as the decoder does, and what it has written is taken back unless it succeeds. -/
theorem attempt_eq (cs : Bool) (hfits : s.arena.Fits) (input : Bytes) : attempt cs s input =
    .ok (s.settle input (Record.Quoted.decode cs s.arena (.within input s.pos))) := by
  rw [attempt, quoted_eq cs input hfits, ok_bind]
  cases Record.Quoted.decode cs s.arena (.within input s.pos) with
  | error why => rfl
  | ok found => rfl

section Attempt

variable {a : Attempt} (hfits : s.arena.Fits) (h : attempt cs s input = .ok a)
include hfits h

theorem input_of_attempt : a.input = input := by
  rw [attempt_eq cs hfits, Except.ok.injEq] at h
  rw [← h, input_settle]

theorem site_of_attempt {why : Stop} (hanswer : a.answer = .error why) : a.site = s := by
  rw [attempt_eq cs hfits, Except.ok.injEq] at h
  subst h
  exact site_settle hanswer

end Attempt

theorem le_length_of_decode {why : Except Stop (Span × Arena × Cursor)}
    (h : Record.Quoted.decode cs s.arena (.within input s.pos) = why)
    (hwhy : ∀ missing, why ≠ .error (.incomplete missing)) : s.pos ≤ input.length := by
  refine Nat.le_of_not_lt fun hlt => hwhy 1 ?_
  have hnil : (Cursor.within input s.pos).rest = [] := List.drop_eq_nil_iff.2 (Nat.le_of_lt hlt)
  rw [← h, Record.Quoted.decode_of_rest_eq_nil hnil]

/-- A call that does not find its input incomplete agrees with one on a longer input. -/
theorem agrees_append (hfits : s.arena.Fits) {a : Attempt} (h : attempt cs s input = .ok a)
    (hanswer : ¬ a.isIncomplete) (more : Bytes) :
    ∃ b, attempt cs s (input ++ more) = .ok b ∧ Agrees a.answer b.answer ∧ a.site = b.site := by
  rw [attempt_eq cs hfits, Except.ok.injEq] at h
  refine ⟨_, attempt_eq cs hfits _, ?_⟩
  cases hdecode : Record.Quoted.decode cs s.arena (.within input s.pos) with
  | ok found =>
      obtain ⟨span, written, after⟩ := found
      have hle := le_length_of_decode hdecode fun _ h => nomatch h
      rw [Cursor.within_append hle, Record.Quoted.decode_append_of_ok hdecode, ← h, hdecode]
      exact ⟨.same _, rfl⟩
  | error why =>
      cases why with
      | incomplete missing =>
          rw [← h, hdecode] at hanswer
          exact absurd rfl hanswer
      | fault e =>
          have hle := le_length_of_decode hdecode fun _ h => nomatch h
          obtain ⟨e', hmore, hgrow⟩ := Record.Quoted.decode_append_of_fault hdecode more
          rw [Cursor.within_append hle, hmore, ← h, hdecode]
          exact ⟨.fault hgrow, rfl⟩

theorem Agrees.eq {answer later : Except Stop Span} (h : Agrees answer later)
    (hroom : ∀ o, answer ≠ .error (.fault (.capacityExceeded o))) : answer = later := by
  cases h with
  | same => rfl
  | fault hgrow =>
      cases hgrow with
      | same => rfl
      | longer => exact absurd rfl (hroom _)

/-- Calls in a row come to the last of them, made on its own. -/
theorem retry_spec (hfits : s.arena.Fits) (earlier : List Bytes) (last : Bytes)
    (hgrow : (earlier ++ [last]).Pairwise (· <+: ·)) :
    ∃ a, retry cs s earlier last = .ok a ∧ a.input ∈ earlier ++ [last] ∧
      attempt cs s a.input = .ok a ∧
      ∃ b, attempt cs s last = .ok b ∧ Agrees a.answer b.answer ∧ a.site = b.site := by
  induction earlier with
  | nil =>
      have halone := attempt_eq cs hfits last
      exact ⟨_, halone, List.mem_singleton.2 (input_settle ..), by rw [input_settle, halone], _, halone,
        .same _, rfl⟩
  | cons input later ih =>
      rw [List.cons_append, List.pairwise_cons] at hgrow
      have hfirst := attempt_eq cs hfits input
      generalize s.settle input (Record.Quoted.decode cs s.arena (.within input s.pos)) = a at hfirst
      rw [retry, hfirst, ok_bind]
      by_cases hincomplete : a.isIncomplete
      · obtain ⟨missing, hanswer⟩ := answer_of_isIncomplete hincomplete
        rw [if_pos hincomplete, site_of_attempt hfits hfirst hanswer]
        obtain ⟨b, hretry, hmem, hb⟩ := ih hgrow.2
        exact ⟨b, hretry, List.mem_cons_of_mem _ hmem, hb⟩
      · obtain ⟨more, hmore⟩ := hgrow.1 last (List.mem_append_right _ (List.mem_singleton.2 rfl))
        have hinput := input_of_attempt hfits hfirst
        rw [if_neg hincomplete]
        refine ⟨a, rfl, ?_, ?_, ?_⟩
        · rw [hinput]
          exact List.mem_cons_self ..
        · rw [hinput, hfirst]
        · rw [← hmore]
          exact agrees_append hfits hfirst hincomplete more

/-- **A string can be tried again.** A call that finds its input incomplete, or a fault, or no room,
leaves the place and the arena as they were, whatever it had written by then. So calls on growing inputs,
made up to the first that does not ask for more, end as the last of them would have ended alone, and as
a call on the longest of the inputs ends, up to the size of an overflow. A string that is decoded and
one with a malformed escape are what they are in every longer input. -/
theorem attempt_retried (cs : Bool) {s : Site} (hfits : s.arena.Fits) :
    (∀ input,
      let a := s.settle input (Record.Quoted.decode cs s.arena (.within input s.pos))
      attempt cs s input = .ok a ∧ (∀ why, a.answer = .error why → a.site = s) ∧
        ((∃ span, a.answer = .ok span) ∨
            (∃ offset, a.answer = .error (.fault (.invalidUnicodeEscape offset))) →
          ∀ more, attempt cs s (input ++ more) = .ok { a with input := input ++ more })) ∧
    ∀ earlier last, (earlier ++ [last]).Pairwise (· <+: ·) →
      ∃ a, retry cs s earlier last = .ok a ∧ a.input ∈ earlier ++ [last] ∧
        attempt cs s a.input = .ok a ∧
        ∃ b, attempt cs s last = .ok b ∧ Agrees a.answer b.answer ∧ a.site = b.site := by
  refine ⟨fun input => ?_, fun earlier last => retry_spec hfits earlier last⟩
  intro a
  have hcall : attempt cs s input = .ok a := attempt_eq cs hfits input
  refine ⟨hcall, fun why => site_of_attempt hfits hcall, fun hanswer more => ?_⟩
  have hincomplete : ¬ a.isIncomplete := by
    intro h
    obtain ⟨missing, hmissing⟩ := answer_of_isIncomplete h
    rcases hanswer with ⟨span, h⟩ | ⟨offset, h⟩ <;> cases hmissing.symm.trans h
  have hroom : ∀ o, a.answer ≠ .error (.fault (.capacityExceeded o)) := by
    intro o ho
    rcases hanswer with ⟨span, h⟩ | ⟨offset, h⟩ <;> cases ho.symm.trans h
  obtain ⟨b, hb, hagrees, hsite⟩ := agrees_append hfits hcall hincomplete more
  rw [hb, hagrees.eq hroom, hsite, ← input_of_attempt hfits hb]

/-- An escape is cut off twice, in an arena that is not empty, and then it arrives. -/
theorem attempt_retried_escape :
    let s : Site := ⟨1, ⟨#[0x78, 0x78], 12, by decide⟩⟩
    let t : Site := ⟨13, ⟨#[0x78, 0x78, 0x61, 0x62, 0x63, 0xD0, 0x96, 0x0A], 12, by decide⟩⟩
    let bs := Utf8.ofString "\"abc\\u0416\\n\""
    let earlier := [bs.take 8, bs.take 11]
    s.arena.Fits ∧ (earlier ++ [bs]).Pairwise (· <+: ·) ∧
      (∃ a, attempt true s (bs.take 8) = .ok a ∧ a.answer = .error (.incomplete 2) ∧ a.site = s) ∧
      (∀ more, attempt true s (bs ++ more) = .ok ⟨bs ++ more, .ok ⟨2, 6⟩, t⟩) ∧
      ∃ a, retry true s earlier bs = .ok a ∧ a.answer = .ok ⟨2, 6⟩ ∧ a.site = t := by
  intro s t bs earlier
  have hfits : s.arena.Fits := show 2 ≤ 12 by decide
  have hgrow : (earlier ++ [bs]).Pairwise (· <+: ·) := by decide +kernel
  have hall : attempt true s bs = .ok ⟨bs, .ok ⟨2, 6⟩, t⟩ := by decide +kernel
  obtain ⟨hcalls, hretry⟩ := attempt_retried true hfits
  refine ⟨hfits, hgrow, ?_, fun more => ?_, ?_⟩
  · obtain ⟨hcut, hsite, -⟩ := hcalls (bs.take 8)
    have hanswer : (s.settle (bs.take 8) (Record.Quoted.decode true s.arena
        (.within (bs.take 8) s.pos))).answer = .error (.incomplete 2) := by
      decide +kernel
    exact ⟨_, hcut, hanswer, hsite _ hanswer⟩
  · obtain ⟨hall', -, hlonger⟩ := hcalls bs
    rw [hall, Except.ok.injEq] at hall'
    rw [← hall'] at hlonger
    exact hlonger (.inl ⟨_, rfl⟩) more
  · obtain ⟨a, ha, -, -, b, hb, hagrees, hsite⟩ := hretry earlier bs hgrow
    rw [hall, Except.ok.injEq] at hb
    subst hb
    refine ⟨a, ha, ?_, hsite⟩
    generalize a.answer = answer at hagrees
    cases hagrees
    rfl

end Checked

end Intake
