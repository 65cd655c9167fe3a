import Intake.Proofs.Record.Keeps
import Intake.Proofs.Record.Steady.Quoted
import Intake.Proofs.Record.Steady.Skip

/-!
# Decoding is steady

Every reader of a record is steady, so the answer of the decoder to an input that is cut off is the
answer to every longer input, unless it asks for more. A record is complete at its closing bracket:
there is no earlier place at which the decoder would have been content.

Whitespace alone is not steady, since more of it may follow. A value is looked for where the whitespace
ends, so it is enough that every reader of a value asks for more where nothing is left.
-/

namespace Intake.Record

namespace Scan

variable {σ τ α β : Type}

/-! ### Readers that look at a byte first -/

/-- At the end of the input the scan asks for one more byte. -/
def Looks (x : Scan σ α) : Prop :=
  ∀ s c, c.skipSpace.rest = [] → ∃ s', x.run s c = .stop (.incomplete 1) s'

theorem looks_bind {x : Scan σ α} (hx : Looks x) (f : α → Scan σ β) : Looks (x >>= f) := by
  intro s c hc
  obtain ⟨s', h⟩ := hx s c hc
  exact ⟨s', by rw [run_bind, h]⟩

theorem looks_position {f : Nat → Scan σ β} (hf : ∀ n, Looks (f n)) : Looks (position >>= f) :=
  fun s c hc => hf c.pos s c hc

theorem looks_get {f : σ → Scan σ β} (hf : ∀ s, Looks (f s)) : Looks (get >>= f) :=
  fun s c hc => hf s s c hc

theorem looks_modify (g : σ → σ) {f : Unit → Scan σ β} (hf : Looks (f ())) :
    Looks (modify g >>= f) := fun s c hc => hf (g s) c hc

theorem looks_read {f : Cursor → Read α} {hforward : Forward f}
    (hf : ∀ c, c.skipSpace.rest = [] → f c = .error (.incomplete 1)) :
    Looks (read f hforward : Scan σ α) := by
  intro s c hc
  exact ⟨s, by simp only [read, hf c hc]⟩

theorem looks_withState (init : τ) {x : Scan τ α} (hx : Looks x) :
    Looks (withState init x : Scan σ (α × τ)) := by
  intro s c hc
  obtain ⟨s', h⟩ := hx init c hc
  exact ⟨s, by simp only [withState, h]⟩

theorem looks_elements (element : Scan σ Unit) : Looks (elements element) :=
  looks_bind (looks_read fun _ => expect_of_nil) _

theorem looks_members (member : Bytes → Scan σ Unit) : Looks (members member) :=
  looks_bind (looks_read fun _ => expect_of_nil) _

theorem integerIn_of_nil {low high : Int} {c : Cursor} (h : c.skipSpace.rest = []) :
    integerIn low high c = .error (.incomplete 1) := by
  have hend : ((sign c.skipSpace).2.skipWhile Byte.isDigit).rest = [] := by
    simp only [sign, h]
    rw [Cursor.skipWhile_of_nil h, h]
  simp only [integerIn, integer, if_pos hend]

theorem looks_timestamp : Looks (timestamp : Scan σ Int) := looks_read fun _ => integerIn_of_nil

theorem looks_identifier : Looks (identifier : Scan σ Nat) :=
  looks_read fun c hc => by simp only [Record.identifier, integerIn_of_nil hc]

theorem looks_skipValue (options : Options) : Looks (skipValue options : Scan σ Unit) :=
  looks_read fun c hc => by simp only [Record.skipValue, skipWithin_eq, skipToken_of_nil hc]

theorem looks_quoted (cs : Bool) (arena : Arena) :
    Looks (read (quoted cs arena) (forward_quoted cs arena) : Scan σ (Span × Arena)) :=
  looks_read fun c hc => by simp only [quoted, expect_of_nil hc]

theorem looks_text (options : Options) : Looks (text options) :=
  looks_get fun _ => looks_bind (looks_quoted _ _) _

theorem looks_scratch (options : Options) : Looks (scratch options) :=
  looks_get fun _ => looks_bind (looks_quoted _ _) _

theorem looks_value (options : Options) (field : Field) : Looks (value options field) := by
  cases field with
  | id => exact looks_bind looks_identifier _
  | sex => exact looks_position fun _ => looks_bind (looks_scratch options) _
  | status => exact looks_position fun _ => looks_bind (looks_scratch options) _
  | text field => exact looks_bind (looks_text options) _
  | birth => exact looks_bind looks_timestamp _
  | joined => exact looks_bind looks_timestamp _
  | premium => exact looks_bind (looks_withState _ (looks_members _)) _
  | interests => exact looks_modify _ (looks_elements _)
  | likes => exact looks_modify _ (looks_elements _)

/-! ### Members -/

variable {F : Fence} (options : Options)

theorem steady_skipSpace {x : Scan σ α} (hx : Steady F 1 1 x) (hlooks : Looks x) :
    Steady F 1 1 (skipSpace >>= fun _ => x) := by
  have hrun : ∀ s c, (skipSpace >>= fun _ => x).run s c = x.run s c.skipSpace := fun _ _ => rfl
  intro s c
  rw [hrun]
  cases hc : c.skipSpace.rest with
  | nil =>
      obtain ⟨s', h⟩ := hlooks s c.skipSpace (by rw [Cursor.skipSpace, Cursor.skipWhile_of_nil hc, hc])
      rw [h]
      exact .incomplete Nat.one_pos fun k hk => F.rest_ne_nil (F.inside_skipSpace hk) hc
  | cons b rest =>
      exact (hx s c.skipSpace).of_eq
        (fun more => by rw [hrun, Cursor.append_skipSpace hc]) fun _ => F.inside_skipSpace

theorem steady_skipValue : Steady F 1 1 (skipValue options : Scan σ Unit) :=
  steady_read (Record.steady_skipValue _)

theorem steady_timestamp : Steady F 1 1 (timestamp : Scan σ Int) :=
  steady_read Record.steady_timestamp

theorem steady_identifier : Steady F 1 1 (identifier : Scan σ Nat) :=
  steady_read Record.steady_identifier

theorem steady_text : Steady F 1 1 (text options) :=
  steady_bind steady_get fun _ => steady_bind (steady_read (steady_quoted _ _)) fun _ =>
    steady_bind (steady_modify _) fun _ => steady_pure _

theorem steady_scratch : Steady F 1 1 (scratch options) :=
  steady_bind steady_get fun _ => steady_bind (steady_read (steady_quoted _ _)) fun _ =>
    steady_pure _

theorem steady_premiumMember (key : Bytes) : Steady F 1 1 (premiumMember options key) := by
  unfold premiumMember
  split
  · exact steady_bind steady_timestamp fun _ => steady_modify _
  · split
    · exact steady_bind steady_timestamp fun _ => steady_modify _
    · exact steady_skipValue options

theorem steady_likeMember (key : Bytes) : Steady F 1 1 (likeMember options key) := by
  unfold likeMember
  split
  · exact steady_bind steady_identifier fun _ => steady_modify _
  · split
    · exact steady_bind steady_timestamp fun _ => steady_modify _
    · exact steady_skipValue options

theorem steady_like : Steady F 1 1 (like options) := by
  refine steady_bind steady_position fun offset => ?_
  apply steady_bind (steady_withState (steady_members (steady_likeMember options)))
  rintro ⟨_, id, timestamp⟩
  cases id with
  | none => exact steady_fail _
  | some id =>
      cases timestamp with
      | none => exact steady_fail _
      | some timestamp => exact steady_modify _

theorem steady_value (field : Field) : Steady F 1 1 (value options field) := by
  cases field with
  | id => exact steady_bind steady_identifier fun _ => steady_modify _
  | sex =>
      refine steady_bind steady_position fun _ => steady_bind (steady_scratch options) fun bs => ?_
      cases Sex.ofCode? bs with
      | none => exact steady_fail _
      | some sex => exact steady_modify _
  | status =>
      refine steady_bind steady_position fun _ => steady_bind (steady_scratch options) fun bs => ?_
      cases Status.ofLiteral? bs with
      | none => exact steady_fail _
      | some status => exact steady_modify _
  | text field => exact steady_bind (steady_text options) fun _ => steady_modify _
  | birth => exact steady_bind steady_timestamp fun _ => steady_modify _
  | joined => exact steady_bind steady_timestamp fun _ => steady_modify _
  | premium =>
      exact steady_bind (steady_withState (steady_members (steady_premiumMember options))) fun _ =>
        steady_modify _
  | interests =>
      refine steady_bind (steady_modify _) fun _ => steady_elements ?_
      exact steady_bind (steady_text options) fun _ => steady_modify _
  | likes => exact steady_bind (steady_modify _) fun _ => steady_elements (steady_like options)

theorem steady_member (key : Bytes) : Steady F 1 1 (member options key) := by
  unfold member
  cases Field.ofName? key with
  | none => exact steady_skipSpace (steady_skipValue options) (looks_skipValue options)
  | some field => exact steady_skipSpace (steady_value options field) (looks_value options field)

theorem steady_record : Steady F 1 1 (record options) := steady_members (steady_member options)

end Scan

/-! ### The decoder -/

section Decode

variable {options : Options} {a b account : Account} {s : Bytes} {n : Nat} {e : Fault}

theorem decode_append_of_complete (h : decode options a s = ⟨.ok (.complete n), account⟩)
    (t : Bytes) : decode options a (s ++ t) = ⟨.ok (.complete n), account⟩ := by
  have hs := Scan.steady_record (F := .nowhere) options (emptied a) (.start s)
  rw [decode_eq] at h
  generalize (Scan.record options).run (emptied a) (.start s) = reply at h hs
  cases hs with
  | ok hmore hin =>
      cases h
      rw [decode_eq, ← Cursor.append_start, hmore t]
      rfl
  | incomplete hpos hout => cases h
  | fault hmore => cases h

theorem decode_append_of_error (h : decode options a s = ⟨.error e, account⟩) (t : Bytes) :
    ∃ e', decode options a (s ++ t) = ⟨.error e', account⟩ ∧ e.Grows e' := by
  have hs := Scan.steady_record (F := .nowhere) options (emptied a) (.start s)
  rw [decode_eq] at h
  generalize (Scan.record options).run (emptied a) (.start s) = reply at h hs
  cases hs with
  | ok hmore hin => cases h
  | incomplete hpos hout => cases h
  | fault hmore =>
      cases h
      obtain ⟨e', he', hgrow, -⟩ := hmore t
      exact ⟨e', by rw [decode_eq, ← Cursor.append_start, he']; rfl, hgrow⟩

theorem pos_of_incomplete (h : decode options a s = ⟨.ok (.incomplete n), account⟩) : 0 < n := by
  have hs := Scan.steady_record (F := .nowhere) options (emptied a) (.start s)
  rw [decode_eq] at h
  generalize (Scan.record options).run (emptied a) (.start s) = reply at h hs
  cases hs with
  | ok hmore hin => cases h
  | incomplete hpos hout =>
      cases h
      exact hpos
  | fault hmore => cases h

/-- Short of its closing bracket a record is neither complete nor at fault. -/
theorem incomplete_of_prefix (h : decode options a s = ⟨.ok (.complete n), account⟩) {p : Bytes}
    (hp : p <+: s.take n) (hne : p ≠ s.take n) :
    ∃ m, 0 < m ∧ (decode options a p).result = .ok (.incomplete m) := by
  have hlt : p.length < n := by
    have hle := hp.length_le
    rw [List.length_take] at hle
    refine Nat.lt_of_le_of_ne (by omega) fun heq => hne (hp.eq_of_length ?_)
    rw [List.length_take]
    omega
  obtain ⟨t, rfl⟩ := hp.trans (List.take_prefix n s)
  cases hd : decode options a p with
  | mk result account' =>
      cases result with
      | error e =>
          obtain ⟨e', he', -⟩ := decode_append_of_error hd t
          rw [h] at he'
          cases he'
      | ok progress =>
          cases progress with
          | complete m =>
              have hm := decode_append_of_complete hd t
              rw [h] at hm
              cases hm
              have hle := (consumed_of_decode (congrArg Decoded.result hd)).2
              omega
          | incomplete m => exact ⟨m, pos_of_incomplete hd, rfl⟩

/-- An answer other than a request for more stands for every longer input and in every account of the
same capacity; only an overflow may turn out larger. A record that is complete was incomplete at
every earlier place, and a decoder that is called again with all of it does as if it had never seen
less. -/
theorem decode_steady (hcap : a.arena.capacity = b.arena.capacity) (s : Bytes) :
    (∀ n account, decode options a s = ⟨.ok (.complete n), account⟩ →
      n ≤ s.length ∧ (∀ t, decode options b (s ++ t) = ⟨.ok (.complete n), account⟩) ∧
        ∀ p, p <+: s.take n → p ≠ s.take n →
          ∃ m, 0 < m ∧ (decode options b p).result = .ok (.incomplete m) ∧
            decode options (decode options b p).account s = decode options a s) ∧
    (∀ e account, decode options a s = ⟨.error e, account⟩ →
      ∀ t, ∃ e', decode options b (s ++ t) = ⟨.error e', account⟩ ∧ e.Grows e') := by
  refine ⟨fun n account h => ?_, fun e account h => ?_⟩
  · refine ⟨(consumed_of_decode (congrArg Decoded.result h)).2, fun t => ?_, fun p hp hne => ?_⟩
    · rw [decode_congr options hcap.symm]
      exact decode_append_of_complete h t
    · rw [decode_congr options hcap.symm]
      obtain ⟨m, hpos, hm⟩ := incomplete_of_prefix h hp hne
      exact ⟨m, hpos, hm, decode_congr options (capacity_decode options a p) s⟩
  · rw [← decode_congr options hcap.symm] at h
    exact decode_append_of_error h

/-- The empty record and an array in place of a record, in an account that holds an identifier. -/
theorem decode_steady_braces :
    let a := Account.new {}
    let b := { a with id := 7 }
    (∀ t, decode {} b ([Byte.openBrace, Byte.closeBrace] ++ t) = ⟨.ok (.complete 2), a⟩) ∧
      (∃ m, 0 < m ∧ (decode {} b [Byte.openBrace]).result = .ok (.incomplete m)) ∧
      ∀ t, ∃ e', decode {} b ([Byte.openSquare] ++ t) = ⟨.error e', a⟩ ∧
        (Fault.unexpectedByte Byte.openSquare 0).Grows e' := by
  intro a b
  have hcap : a.arena.capacity = b.arena.capacity := rfl
  have hobject : decode {} a [Byte.openBrace, Byte.closeBrace] = ⟨.ok (.complete 2), a⟩ := rfl
  have hempty := (decode_steady hcap [Byte.openBrace, Byte.closeBrace]).1 2 a hobject
  have hsquare : decode {} a [Byte.openSquare] =
      ⟨.error (.unexpectedByte Byte.openSquare 0), a⟩ := rfl
  have harray := (decode_steady hcap [Byte.openSquare]).2 _ a hsquare
  obtain ⟨-, hlonger, hshorter⟩ := hempty
  obtain ⟨m, hpos, hm, -⟩ := hshorter [Byte.openBrace] ⟨[Byte.closeBrace], rfl⟩ (by decide)
  exact ⟨hlonger, ⟨m, hpos, hm⟩, harray⟩

end Decode

end Intake.Record
