import Intake.Proofs.Arena
import Intake.Proofs.Record.Rendering

/-!
# What an account holds

An account holds a value of a field, or the absence of one. Texts and interests are held through their
spans, so what is held does not change when more is written to the arena. A field can be held whatever
becomes of the others.
-/

namespace Intake

/-! ### Fenceposts -/

section Posts

variable {α β : Type}

/-- One more post makes one more stretch, from the last post on. -/
theorem zipWith_tail_concat (f : α → α → β) {posts : List α} {last : α}
    (h : posts.getLast? = some last) (post : α) :
    (posts ++ [post]).zipWith f (posts ++ [post]).tail = posts.zipWith f posts.tail ++ [f last post] := by
  induction posts with
  | nil => cases h
  | cons first posts ih =>
      cases posts with
      | nil =>
          cases h
          rfl
      | cons second posts =>
          have hlast : (second :: posts).getLast? = some last := by
            rw [← h, List.getLast?_cons_cons]
          exact congrArg (f first second :: ·) (ih hlast)

end Posts

namespace Account

theorem interestSpans_pushInterest {a : Account} {span : Span}
    (h : a.interestPosts = #[] ∨ a.interestPosts.toList.getLast? = some span.offset) :
    (a.pushInterest span).interestSpans = a.interestSpans ++ [span] := by
  have hspan : Span.between span.offset span.stop = span := by
    simp [Span.between, Span.stop]
  rcases h with h | h
  · simp [interestSpans, pushInterest, h, hspan]
  · have hne : a.interestPosts.isEmpty = false := by
      cases hposts : a.interestPosts.toList with
      | nil => simp [hposts] at h
      | cons => simp [Array.isEmpty, ← Array.length_toList, hposts]
    simp only [interestSpans, pushInterest, hne, Bool.false_eq_true, if_false, Array.toList_push]
    rw [zipWith_tail_concat Span.between h span.stop, hspan]

theorem getLast?_pushInterest (a : Account) (span : Span) :
    (a.pushInterest span).interestPosts.toList.getLast? = some span.stop := by
  simp [pushInterest]

end Account

theorem Arena.map_get?_of_extends {a b : Arena} (h : a.Extends b) {spans : List Span}
    {texts : List Bytes} (hspans : spans.map a.get? = texts.map some) :
    spans.map b.get? = texts.map some := by
  induction spans generalizing texts with
  | nil => exact hspans
  | cons span spans ih =>
      cases texts with
      | nil => cases hspans
      | cons text texts =>
          rw [List.map_cons, List.map_cons, List.cons.injEq] at hspans
          rw [List.map_cons, List.map_cons, Arena.get?_of_extends h hspans.1, ih hspans.2]

namespace Record

/-! ### Fields -/

/-- The time between two ends, of which the last that is given counts. It is absent if an end is
missing, or is the point in time that stands for none. -/
def premiumOf (ends : List (End × Timestamp)) : Premium :=
  match ends.reverse.lookup .start, ends.reverse.lookup .finish with
  | some start, some finish =>
    if start.1 = absentTimestamp ∨ finish.1 = absentTimestamp then .absent else ⟨start.1, finish.1⟩
  | _, _ => .absent

/-- The account holds this value of the field, or none. -/
def Holds (account : Account) : (field : Field) → Option field.Value → Prop
  | .id, value => account.id = value.elim absentId (·.1)
  | .sex, value => account.sex = value
  | .status, value => account.status = value
  | .text field, value => value.elim (account.texts field = .absent) fun bytes =>
      account.arena.get? (account.texts field) = some bytes
  | .birth, value => account.birth = value.elim absentTimestamp (·.1)
  | .joined, value => account.joined = value.elim absentTimestamp (·.1)
  | .premium, value => account.premium = value.elim .absent premiumOf
  | .interests, value => account.interestSpans.map account.arena.get? = (value.getD []).map some
  | .likes, value => account.likes.toList = (value.getD []).map GivenLike.like

/-- Every other field is held as before. -/
def Frame (field : Field) (a b : Account) : Prop :=
  ∀ other, other ≠ field → ∀ value, Holds a other value → Holds b other value

variable {account : Account} {arena : Arena}

theorem Holds.extend (h : account.arena.Extends arena) {field : Field} {value : Option field.Value}
    (hold : Holds account field value) : Holds { account with arena } field value := by
  cases field with
  | id | sex | status | birth | joined | premium | likes => exact hold
  | text field =>
      cases value with
      | none => exact hold
      | some bytes => exact Arena.get?_of_extends h hold
  | interests => exact Arena.map_get?_of_extends h hold

namespace Frame

variable {field : Field} {a b c : Account}

theorem trans (h : Frame field a b) (h' : Frame field b c) : Frame field a c :=
  fun other hne value hold => h' other hne value (h other hne value hold)

theorem extend (h : account.arena.Extends arena) : Frame field account { account with arena } :=
  fun _ _ _ hold => hold.extend h

end Frame

end Record

end Intake
