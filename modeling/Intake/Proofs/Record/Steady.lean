import Intake.Proofs.Record.Fence
import Intake.Record.Scan

/-!
# Steady readers

What a reader makes of an input that was cut off is no guess. When it succeeds or finds a fault, it
does the same on every continuation of the input, and when it asks for more, it asks for at least one
byte. Inside a fence it never asks for more, and its faults do not even grow.

Steadiness passes from parts to wholes: of two readers in a row, of a list of items and of objects
and arrays. `Steady F i j` is said of a reader that starts within `k + i` open brackets and leaves
`k + j` of them open.
-/

namespace Intake

/-- What becomes of an overflow when the text that did not fit turns out to be longer. -/
def Overflow.Grows (o p : Overflow) : Prop :=
  o.capacity = p.capacity ∧ o.requested ≤ p.requested

namespace Record

/-- What becomes of a fault when more input arrives. -/
inductive Fault.Grows : Fault → Fault → Prop
  | same (fault : Fault) : Grows fault fault
  | longer {o p : Overflow} (h : o.Grows p) : Grows (.capacityExceeded o) (.capacityExceeded p)

section Read

variable {α β : Type} {F : Fence} {i j : Nat} {f : Cursor → Read α}

/-- An answer at `c` that more input does not overturn. -/
inductive SteadyAnswer (F : Fence) (i j : Nat) (f : Cursor → Read α) (c : Cursor) : Read α → Prop
  | ok {a : α} {d : Cursor} (hmore : ∀ more, f (c.append more) = .ok (a, d.append more))
      (hin : ∀ k, F.inside (k + i) c → F.inside (k + j) d) : SteadyAnswer F i j f c (.ok (a, d))
  | incomplete {missing : Nat} (hpos : 0 < missing) (hout : ∀ k, ¬ F.inside (k + i) c) :
      SteadyAnswer F i j f c (.error (.incomplete missing))
  | fault {e : Fault} (hmore : ∀ more, ∃ e', f (c.append more) = .error (.fault e') ∧ e.Grows e' ∧
      ∀ k, F.inside (k + i) c → e' = e) : SteadyAnswer F i j f c (.error (.fault e))

def Steady (F : Fence) (i j : Nat) (f : Cursor → Read α) : Prop :=
  ∀ c, SteadyAnswer F i j f c (f c)

theorem SteadyAnswer.fixed {c : Cursor} {e : Fault}
    (h : ∀ more, f (c.append more) = .error (.fault e)) :
    SteadyAnswer F i j f c (.error (.fault e)) :=
  .fault fun more => ⟨e, h more, .same e, fun _ _ => rfl⟩

/-- Within further brackets a reader is as steady as outside of them. -/
theorem SteadyAnswer.deeper {c : Cursor} {answer : Read α} (h : SteadyAnswer F i j f c answer)
    (n : Nat) : SteadyAnswer F (n + i) (n + j) f c answer := by
  cases h with
  | ok hmore hin =>
      refine .ok hmore fun k hk => ?_
      rw [← Nat.add_assoc] at hk ⊢
      exact hin (k + n) hk
  | incomplete hpos hout =>
      refine .incomplete hpos fun k hk => ?_
      rw [← Nat.add_assoc] at hk
      exact hout (k + n) hk
  | fault hmore =>
      refine .fault fun more => ?_
      obtain ⟨e', he', hgrow, hsame⟩ := hmore more
      refine ⟨e', he', hgrow, fun k hk => ?_⟩
      rw [← Nat.add_assoc] at hk
      exact hsame (k + n) hk

theorem SteadyAnswer.of_eq {g : Cursor → Read α} {l : Nat} {c d : Cursor} {answer : Read α}
    (h : SteadyAnswer F j l g d answer) (hmore : ∀ more, f (c.append more) = g (d.append more))
    (hin : ∀ k, F.inside (k + i) c → F.inside (k + j) d) : SteadyAnswer F i l f c answer := by
  cases h with
  | ok hmore' hin' =>
      exact .ok (fun more => (hmore more).trans (hmore' more)) fun k hk => hin' k (hin k hk)
  | incomplete hpos hout => exact .incomplete hpos fun k hk => hout k (hin k hk)
  | fault hmore' =>
      refine .fault fun more => ?_
      obtain ⟨e', he', hgrow, hsame⟩ := hmore' more
      exact ⟨e', (hmore more).trans he', hgrow, fun k hk => hsame k (hin k hk)⟩

/-- What is made of a token depends on the token and on where it was looked for. -/
theorem SteadyAnswer.check {g : Cursor → Read β} {c : Cursor} (hf : SteadyAnswer F i j f c (f c))
    (check : Nat → α → Except Fault β)
    (hg : ∀ more, g (c.append more) =
      match f (c.append more) with
      | .error why => .error why
      | .ok (a, d) =>
        match check c.pos a with
        | .error e => .error (.fault e)
        | .ok b => .ok (b, d)) : SteadyAnswer F i j g c (g c) := by
  have hgc := hg []
  rw [Cursor.append_nil] at hgc
  rw [hgc]
  cases hc : f c with
  | error why =>
      rw [hc] at hf
      cases hf with
      | incomplete hpos hout => exact .incomplete hpos hout
      | fault hmore =>
          refine .fault fun more => ?_
          obtain ⟨e', he', hgrow⟩ := hmore more
          exact ⟨e', by rw [hg, he'], hgrow⟩
  | ok found =>
      rw [hc] at hf
      cases hf with
      | @ok a d hmore hin =>
          have hga : ∀ more, g (c.append more) =
              match check c.pos a with
              | .error e => .error (.fault e)
              | .ok b => .ok (b, d.append more) := fun more => by rw [hg, hmore more]
          dsimp only
          cases ha : check c.pos a with
          | error e => exact .fixed fun more => by rw [hga, ha]
          | ok b => exact .ok (fun more => by rw [hga, ha]) hin

end Read

namespace Scan

variable {σ τ α β : Type} {F : Fence} {i j l : Nat}

/-- A reply at `c` in the state `s` that more input does not overturn. -/
inductive SteadyReply (F : Fence) (i j : Nat) (run : σ → Cursor → Reply σ α) (s : σ) (c : Cursor) :
    Reply σ α → Prop
  | ok {a : α} {s' : σ} {d : Cursor} (hmore : ∀ more, run s (c.append more) = .ok a s' (d.append more))
      (hin : ∀ k, F.inside (k + i) c → F.inside (k + j) d) : SteadyReply F i j run s c (.ok a s' d)
  | incomplete {missing : Nat} {s' : σ} (hpos : 0 < missing) (hout : ∀ k, ¬ F.inside (k + i) c) :
      SteadyReply F i j run s c (.stop (.incomplete missing) s')
  | fault {e : Fault} {s' : σ} (hmore : ∀ more, ∃ e', run s (c.append more) = .stop (.fault e') s' ∧
      e.Grows e' ∧ ∀ k, F.inside (k + i) c → e' = e) : SteadyReply F i j run s c (.stop (.fault e) s')

def SteadyRun (F : Fence) (i j : Nat) (run : σ → Cursor → Reply σ α) : Prop :=
  ∀ s c, SteadyReply F i j run s c (run s c)

abbrev Steady (F : Fence) (i j : Nat) (x : Scan σ α) : Prop := SteadyRun F i j x.run

theorem SteadyReply.fixed {run : σ → Cursor → Reply σ α} {s s' : σ} {c : Cursor} {e : Fault}
    (h : ∀ more, run s (c.append more) = .stop (.fault e) s') :
    SteadyReply F i j run s c (.stop (.fault e) s') :=
  .fault fun more => ⟨e, h more, .same e, fun _ _ => rfl⟩

theorem SteadyReply.of_stop {x : σ → Cursor → Reply σ α} {y : τ → Cursor → Reply τ β} {s s' : σ}
    {t t' : τ} {c : Cursor} {why : Stop} (h : SteadyReply F i j x s c (.stop why s'))
    (hstop : ∀ {more why}, x s (c.append more) = .stop why s' → y t (c.append more) = .stop why t') :
    SteadyReply F i l y t c (.stop why t') := by
  cases h with
  | incomplete hpos hout => exact .incomplete hpos hout
  | fault hmore =>
      refine .fault fun more => ?_
      obtain ⟨e', he', hgrow⟩ := hmore more
      exact ⟨e', hstop he', hgrow⟩

theorem SteadyReply.of_eq {run run' : σ → Cursor → Reply σ α} {s s' : σ} {c d : Cursor}
    {reply : Reply σ α} (h : SteadyReply F j l run' s' d reply)
    (hmore : ∀ more, run s (c.append more) = run' s' (d.append more))
    (hin : ∀ k, F.inside (k + i) c → F.inside (k + j) d) : SteadyReply F i l run s c reply := by
  cases h with
  | ok hmore' hin' =>
      exact .ok (fun more => (hmore more).trans (hmore' more)) fun k hk => hin' k (hin k hk)
  | incomplete hpos hout => exact .incomplete hpos fun k hk => hout k (hin k hk)
  | fault hmore' =>
      refine .fault fun more => ?_
      obtain ⟨e', he', hgrow, hsame⟩ := hmore' more
      exact ⟨e', (hmore more).trans he', hgrow, fun k hk => hsame k (hin k hk)⟩

theorem SteadyRun.deeper {run : σ → Cursor → Reply σ α} (h : SteadyRun F i j run) :
    SteadyRun F (i + 1) (j + 1) run := by
  intro s c
  have hin : ∀ {k n : Nat} {d : Cursor}, F.inside (k + (n + 1)) d ↔ F.inside (k + 1 + n) d := by
    intro k n d
    rw [← Nat.add_assoc, Nat.add_right_comm]
  have hreply := h s c
  generalize run s c = reply at hreply
  cases hreply with
  | ok hmore hkeep => exact .ok hmore fun k hk => hin.2 (hkeep (k + 1) (hin.1 hk))
  | incomplete hpos hout => exact .incomplete hpos fun k hk => hout (k + 1) (hin.1 hk)
  | fault hmore =>
      refine .fault fun more => ?_
      obtain ⟨e', he', hgrow, hsame⟩ := hmore more
      exact ⟨e', he', hgrow, fun k hk => hsame (k + 1) (hin.1 hk)⟩

theorem steady_pure (a : α) : Steady F i i (Pure.pure a : Scan σ α) :=
  fun _ _ => .ok (fun _ => rfl) fun _ h => h

theorem steady_get : Steady F i i (get : Scan σ σ) :=
  fun _ _ => .ok (fun _ => rfl) fun _ h => h

theorem steady_modify (f : σ → σ) : Steady F i i (modify f) :=
  fun _ _ => .ok (fun _ => rfl) fun _ h => h

theorem steady_position : Steady F i i (position : Scan σ Nat) :=
  fun _ _ => .ok (fun _ => rfl) fun _ h => h

theorem steady_fail (fault : Fault) : Steady F i j (fail fault : Scan σ α) :=
  fun _ _ => .fixed fun _ => rfl

theorem steady_bind {x : Scan σ α} {f : α → Scan σ β} (hx : Steady F i j x)
    (hf : ∀ a, Steady F j l (f a)) : Steady F i l (x >>= f) := by
  intro s c
  have hxc := hx s c
  rw [run_bind]
  cases hrun : x.run s c with
  | stop why s' =>
      rw [hrun] at hxc
      exact hxc.of_stop fun hstop => by rw [run_bind, hstop]
  | ok a s' d =>
      rw [hrun] at hxc
      cases hxc with
      | ok hmore hin =>
          exact (hf a s' d).of_eq (fun more => by rw [run_bind, hmore more]) hin

theorem steady_read {f : Cursor → Read α} {hforward : Forward f} (hf : Record.Steady F i j f) :
    Steady F i j (read f hforward : Scan σ α) := by
  intro s c
  have hfc := hf c
  rw [run_read]
  cases hc : f c with
  | ok found =>
      rw [hc] at hfc
      cases hfc with
      | ok hmore hin => exact .ok (fun more => by rw [run_read, hmore more]) hin
  | error why =>
      rw [hc] at hfc
      cases hfc with
      | incomplete hpos hout => exact .incomplete hpos hout
      | fault hmore =>
          refine .fault fun more => ?_
          obtain ⟨e', he', hgrow⟩ := hmore more
          exact ⟨e', by rw [run_read, he'], hgrow⟩

theorem steady_withState {init : τ} {x : Scan τ α} (hx : Steady F i j x) :
    Steady F i j (withState init x : Scan σ (α × τ)) := by
  intro s c
  have hxc := hx init c
  rw [run_withState]
  cases hc : x.run init c with
  | ok a t d =>
      rw [hc] at hxc
      cases hxc with
      | ok hmore hin => exact .ok (fun more => by rw [run_withState, hmore more]) hin
  | stop why t =>
      rw [hc] at hxc
      exact hxc.of_stop fun hstop => by rw [run_withState, hstop]

/-! ### Lists

After each item the reader has to see the byte that follows, so a list is as steady as its items. The
byte that closes the list takes it out of one bracket. -/

theorem steady_runItems {close : UInt8} {item : Scan σ Unit} (hclose : Stream.closes close)
    (hitem : Steady F 1 1 item) : SteadyRun F 1 0 (runItems close item) := by
  intro s c
  fun_induction runItems close item s c with
  | case1 s c why s' hi =>
      have hc := hitem s c
      rw [hi] at hc
      exact hc.of_stop fun hstop => by rw [runItems_eq, hstop]
  | case2 s c _ s' d hi hd =>
      have hc := hitem s c
      rw [hi] at hc
      cases hc with
      | ok hmore hin =>
          exact .incomplete Nat.one_pos fun k hk =>
            F.rest_ne_nil (F.inside_skipSpace (hin k hk)) hd
  | case3 s c _ s' d hi tail hd _ ih =>
      have hc := hitem s c
      rw [hi] at hc
      cases hc with
      | ok hmore hin =>
          have hin' : ∀ k, F.inside (k + 1) c → F.inside (k + 1) (d.skipSpace.advance 1) :=
            fun k hk => F.inert (F.inside_skipSpace (hin k hk)) hd rfl
          have hrest : ∀ more, runItems close item s (c.append more) =
              runItems close item s' ((d.skipSpace.advance 1).append more) := fun more => by
            rw [runItems_eq, hmore more]
            simp only [Cursor.append_skipSpace hd, Cursor.rest_append, hd,
              List.cons_append, if_true, Cursor.append_advance_one hd]
          exact ih.of_eq hrest hin'
  | case4 s c _ s' d hi tail hd _ hcomma =>
      have hc := hitem s c
      rw [hi] at hc
      cases hc with
      | ok hmore hin =>
          refine .ok (fun more => ?_) fun k hk => F.leave (F.inside_skipSpace (hin k hk)) hd hclose
          rw [runItems_eq, hmore more]
          simp only [Cursor.append_skipSpace hd, Cursor.rest_append, hd,
            List.cons_append, if_neg hcomma, if_true, Cursor.append_advance_one hd]
  | case5 s c _ s' d hi b tail hd _ hcomma hb =>
      have hc := hitem s c
      rw [hi] at hc
      cases hc with
      | ok hmore hin =>
          refine .fixed fun more => ?_
          rw [runItems_eq, hmore more]
          simp only [Cursor.append_skipSpace hd, Cursor.rest_append, hd,
            List.cons_append, if_neg hcomma, if_neg hb, Cursor.pos_append]

theorem steady_list {close : UInt8} {item : Scan σ Unit} (hclose : Stream.closes close)
    (hitem : Steady F 1 1 item) : Steady F 1 0 (list close item) := by
  intro s c
  show SteadyReply F 1 0 (runList close item) s c (runList close item s c)
  cases hc : c.skipSpace.rest with
  | nil =>
      rw [runList, hc]
      exact .incomplete Nat.one_pos fun k hk => F.rest_ne_nil (F.inside_skipSpace hk) hc
  | cons b tail =>
      have hmore : ∀ more, runList close item s (c.append more) =
          if b = close then .ok () s ((c.skipSpace.advance 1).append more)
          else runItems close item s (c.skipSpace.append more) := fun more => by
        simp only [runList, Cursor.append_skipSpace hc, Cursor.rest_append, hc,
          List.cons_append, Cursor.append_advance_one hc]
      by_cases hb : b = close
      · rw [runList, hc]
        simp only [if_pos hb]
        refine .ok (fun more => by rw [hmore, if_pos hb]) fun k hk => ?_
        exact F.leave (F.inside_skipSpace hk) hc (hb ▸ hclose)
      · rw [runList, hc]
        simp only [if_neg hb]
        exact (steady_runItems hclose hitem s c.skipSpace).of_eq
          (fun more => by rw [hmore, if_neg hb]) fun _ => F.inside_skipSpace

end Scan

end Record

end Intake
