import Intake.Proofs.Account.Layout
import Intake.Proofs.Record.Keeps

/-!
# Accounts stay in order

Whatever is done to an account, and wherever a decoder stops, the texts and interests of the account
are stretches of its arena that share no byte. A scan writes to the arena only where it sets a text or
pushes an interest, and every other step of it leaves spans and arena alone. While interests are read
more is known of them than afterwards, so their loop has an invariant of its own.
-/

namespace Intake

/-- What every step keeps of an account. -/
def Account.Settled (a : Account) : Prop :=
  a.arena.Fits ∧ Layout a.texts a.interestPosts.toList a.arena.cursor ∧
    (a.premium.start = absentTimestamp ↔ a.premium.finish = absentTimestamp)

theorem Account.Settled.represented {a : Account} (h : a.Settled) : a.Represented :=
  h.2.1.represented h.1 h.2.2

theorem Account.settled_empty {arena : Arena} (hfits : arena.Fits) : Account.Settled { arena } :=
  ⟨hfits, layout_absent _, Iff.rfl⟩

namespace Record

namespace Scan

open Account (Settled)

variable (options : Options)

theorem settled_text (field : TextField) :
    Keeps Settled (text options >>= fun span => modify (·.setText field span)) := by
  refine keeps_text_modify options fun a arena pieces ha hext => ?_
  obtain ⟨hfits, hlayout, hpremium⟩ := ha
  have hfits' := hfits.extendAll hext
  exact ⟨hfits', hlayout.write (Arena.extends_extendAll hext) hfits' field, hpremium⟩

/-- The interests are emptied first, so their loop starts where nothing is to be known of them. -/
theorem settled_interests : Keeps Settled (interests options) := by
  have hinterest : Keeps (fun a => Settled a ∧ Filling a.texts a.interestPosts.toList a.arena.cursor)
      (text options >>= fun span => modify (·.pushInterest span)) := by
    refine keeps_text_modify options fun a arena pieces ha hext => ?_
    obtain ⟨⟨hfits, -, hpremium⟩, hfilling⟩ := ha
    have hfits' := hfits.extendAll hext
    have hpushed := hfilling.push (Arena.extends_extendAll hext) hfits'
    exact ⟨⟨hfits', hpushed.toLayout, hpremium⟩, hpushed⟩
  intro s c hs
  have hcleared := hs.2.1.clear
  exact (keeps_elements hinterest s.clearInterests c
    ⟨⟨hs.1, hcleared.toLayout, hs.2.2⟩, hcleared⟩).1

/-- A time that lacks an end is made absent as a whole. -/
theorem settled_premium : Keeps Settled (premium options) := by
  refine keeps_bind keeps_withState fun found => keeps_modify fun a ha => ⟨ha.1, ha.2.1, ?_⟩
  dsimp only
  split
  next hpresent =>
    simp only [Premium.isPresent, Bool.and_eq_true, bne_iff_ne] at hpresent
    exact iff_of_false hpresent.1 hpresent.2
  next => exact Iff.rfl

theorem settled_record : Keeps Settled (record options) := by
  refine keeps_record options (keeps_value options ?_ (settled_text options)
    (settled_interests options) (settled_premium options))
  intro a b harena htexts hposts hpremium ha
  rw [Settled, harena, htexts, hposts, hpremium]
  exact ha

end Scan

end Record

/-! ### Runs -/

namespace Account

/-- What can be done to an account. -/
inductive Action where
  | decode (options : Options) (input : Bytes)
  | clear
  | intern (bytes : Bytes)
  | addLike (like : Like)

/-- The account after an action, whatever the action came to. -/
def act (a : Account) : Action → Account
  | .decode options input => (Record.decode options a input).account
  | .clear => a.clear
  | .intern bytes =>
    match a.intern bytes with
    | .ok (_, interned) => interned
    | .error _ => a
  | .addLike like => a.addLike like

/-- A new account after a row of actions. -/
def run (options : Options) (actions : List Action) : Account := actions.foldl act (.new options)

variable {a : Account}

/-- A decoder empties the account first, so it does not matter what it is given. -/
theorem settled_decode (options : Options) (a : Account) (input : Bytes) :
    Settled (Record.decode options a input).account := by
  rw [Record.decode_eq, Record.Reply.account_decoded]
  exact Record.Scan.settled_record options (Record.emptied a) (.start input)
    (settled_empty (Arena.fits_empty rfl))

theorem Settled.intern (h : Settled a) (bytes : Bytes) : Settled (a.act (.intern bytes)) := by
  obtain ⟨hfits, hlayout, hpremium⟩ := h
  cases hext : a.arena.extend bytes with
  | error overflow =>
      have hintern : a.intern bytes = .error overflow := by
        rw [Account.intern, hext]
        rfl
      have hsame : a.act (.intern bytes) = a := by simp only [Account.act, hintern]
      rw [hsame]
      exact ⟨hfits, hlayout, hpremium⟩
  | ok arena =>
      have hintern : a.intern bytes = .ok (arena.finish a.arena.cursor, { a with arena }) := by
        rw [Account.intern, hext]
        rfl
      have hwritten : a.act (.intern bytes) = { a with arena } := by simp only [Account.act, hintern]
      rw [hwritten]
      exact ⟨hfits.extend hext, hlayout.mono (Arena.extends_extend hext).cursor_le, hpremium⟩

theorem Settled.act (h : Settled a) (action : Action) : Settled (a.act action) := by
  cases action with
  | decode options input => exact settled_decode options a input
  | clear => exact settled_empty h.1
  | intern bytes => exact h.intern bytes
  | addLike like => exact h

theorem Settled.foldl (h : Settled a) (actions : List Action) :
    Settled (actions.foldl Account.act a) := by
  induction actions generalizing a with
  | nil => exact h
  | cons action actions ih => exact ih (h.act action)

/-- **Accounts stay in order.** After any row of actions, failed ones among them, the texts and the
interests of an account lie apart from each other in what was written, and its lists and its premium
time are whole. -/
theorem represented_run (options : Options) (actions : List Action) :
    Represented (run options actions) :=
  (Settled.foldl (settled_empty (Arena.fits_empty rfl)) actions).represented

end Account

end Intake
