import Intake.Proofs.Record.Missing.Quoted

/-!
# The decoder lacks as many bytes as it says

A scan waits if fewer bytes than it asks for do not make it succeed. Most readers ask for one byte at a
time, and then there is nothing to show. A scan in steps waits because its first steps have been taken
for good: they are steady, so the longer input is read up to the same place, where the step that
asked for more asks again or fails.
-/

namespace Intake.Record

variable {α β σ τ : Type} {cs : Bool}

/-! ### Readers that ask for one byte -/

/-- The reader never asks for more than one byte. -/
def AsksOne (f : Cursor → Read α) : Prop :=
  ∀ ⦃c n⦄, f c = .error (.incomplete n) → n = 1

theorem asksOne_expect (b : UInt8) : AsksOne (expect b) := by
  intro c n h
  unfold expect at h
  split at h
  · cases h
    rfl
  · split at h <;> cases h

theorem asksOne_rawString : AsksOne rawString := by
  intro c n h
  unfold rawString at h
  split at h
  next why hexpect =>
    cases h
    exact asksOne_expect _ hexpect
  · split at h
    · cases h
      rfl
    · cases h

theorem asksOne_integer : AsksOne integer := by
  intro c n h
  simp only [integer] at h
  split at h
  · cases h
    rfl
  split at h
  · cases h
  split at h <;> cases h

theorem asksOne_integerIn (low high : Int) : AsksOne (integerIn low high) := by
  intro c n h
  unfold integerIn at h
  split at h
  next why hinteger =>
    cases h
    exact asksOne_integer hinteger
  · split at h <;> cases h

theorem asksOne_identifier : AsksOne identifier := by
  intro c n h
  unfold identifier at h
  split at h
  next why hinteger =>
    cases h
    exact asksOne_integerIn _ _ hinteger
  · cases h

theorem asksOne_word : AsksOne word := by
  intro c n h
  simp only [word] at h
  split at h
  · cases h
    rfl
  · split at h <;> cases h

theorem asksOne_skipToken (limit : Nat) (nest : Nest) : AsksOne (skipToken limit nest) := by
  intro c n h
  unfold skipToken at h
  split at h
  · cases h
    rfl
  split at h
  · split at h
    next why hstring =>
      cases h
      exact asksOne_rawString hstring
    · cases h
  split at h
  · split at h <;> cases h
  · split at h <;> cases h
  · split at h
    · split at h <;> cases h
    · split at h
      next why hword =>
        cases h
        exact asksOne_word hword
      · cases h

theorem asksOne_skipValue (maxNesting : Nat) : AsksOne (skipValue maxNesting) := by
  have hwithin : ∀ nest c n, skipWithin (nestingLimit maxNesting) nest c = .error (.incomplete n) →
      n = 1 := by
    intro nest c n h
    fun_induction skipWithin (nestingLimit maxNesting) nest c with
    | case1 nest c why htoken =>
        cases h
        exact asksOne_skipToken _ _ htoken
    | case2 => cases h
    | case3 nest c nest' d htoken _ _ ih => exact ih h
  exact fun c n h => hwithin _ c n h

namespace Scan

/-- Fewer bytes than the scan asks for do not make it succeed, unless the input ends within a pair. -/
def WaitsRun (cs : Bool) (run : σ → Cursor → Reply σ α) : Prop :=
  ∀ ⦃s s' c n⦄, run s c = .stop (.incomplete n) s' → ∀ more : Bytes, more.length < n →
    EndsInPair cs n c.rest ∨ ∀ a t d, run s (c.append more) ≠ .ok a t d

abbrev Waits (cs : Bool) (x : Scan σ α) : Prop := WaitsRun cs x.run

theorem not_ok_of_one {run : σ → Cursor → Reply σ α} {s s' : σ} {c : Cursor}
    (h : run s c = .stop (.incomplete 1) s') {more : Bytes} (hlt : more.length < 1) :
    ∀ a t d, run s (c.append more) ≠ .ok a t d := by
  intro a t d hok
  rw [List.eq_nil_of_length_eq_zero (Nat.lt_one_iff.1 hlt), Cursor.append_nil, h] at hok
  cases hok

theorem waits_of_one {run : σ → Cursor → Reply σ α}
    (h : ∀ s s' c n, run s c = .stop (.incomplete n) s' → n = 1) : WaitsRun cs run := by
  intro s s' c n hrun more hlt
  obtain rfl := h s s' c n hrun
  exact .inr (not_ok_of_one hrun hlt)

theorem waits_pure (a : α) : Waits cs (Pure.pure a : Scan σ α) :=
  waits_of_one fun _ _ _ _ h => by cases h

theorem waits_get : Waits cs (get : Scan σ σ) := waits_of_one fun _ _ _ _ h => by cases h

theorem waits_modify (f : σ → σ) : Waits cs (modify f) := waits_of_one fun _ _ _ _ h => by cases h

theorem waits_position : Waits cs (position : Scan σ Nat) := waits_of_one fun _ _ _ _ h => by cases h

theorem waits_fail (fault : Fault) : Waits cs (fail fault : Scan σ α) :=
  waits_of_one fun _ _ _ _ h => by cases h

theorem waits_bind {i j : Nat} {x : Scan σ α} {f : α → Scan σ β} (hsteady : Steady .nowhere i j x)
    (hx : Waits cs x) (hf : ∀ a, Waits cs (f a)) : Waits cs (x >>= f) := by
  intro s s' c n h more hlt
  have hxc := hsteady s c
  rw [run_bind] at h
  cases hrun : x.run s c with
  | stop why s₁ =>
      rw [hrun] at h
      cases h
      refine (hx hrun more hlt).imp_right fun hnot a t d hok => ?_
      rw [run_bind] at hok
      cases hmore : x.run s (c.append more) with
      | ok a₁ t₁ e => exact hnot a₁ t₁ e hmore
      | stop why' t₁ =>
          rw [hmore] at hok
          cases hok
  | ok a s₁ d =>
      rw [hrun] at h hxc
      cases hxc with
      | ok hmore =>
          rw [run_bind, hmore more]
          exact (hf a h more hlt).imp_left fun hpair => hpair.of_reaches (x.reaches hrun)

theorem waits_read {f : Cursor → Read α} {hforward : Forward f}
    (hf : ∀ c n, f c = .error (.incomplete n) → ∀ more : Bytes, more.length < n →
      EndsInPair cs n c.rest ∨ ∀ found, f (c.append more) ≠ .ok found) :
    Waits cs (read f hforward : Scan σ α) := by
  intro s s' c n h more hlt
  rw [run_read] at h
  cases hc : f c with
  | ok found =>
      rw [hc] at h
      cases h
  | error why =>
      rw [hc] at h
      cases h
      refine (hf c n hc more hlt).imp_right fun hnot a t d hok => ?_
      rw [run_read] at hok
      cases hmore : f (c.append more) with
      | ok found => exact hnot found hmore
      | error why' =>
          rw [hmore] at hok
          cases hok

theorem waits_read_of_one {f : Cursor → Read α} {hforward : Forward f} (hf : AsksOne f) :
    Waits cs (read f hforward : Scan σ α) := by
  refine waits_of_one fun s s' c n h => ?_
  rw [run_read] at h
  cases hc : f c with
  | ok found =>
      rw [hc] at h
      cases h
  | error why =>
      rw [hc] at h
      cases h
      exact hf hc

theorem waits_withState {init : τ} {x : Scan τ α} (hx : Waits cs x) :
    Waits cs (withState init x : Scan σ (α × τ)) := by
  intro s s' c n h more hlt
  rw [run_withState] at h
  cases hc : x.run init c with
  | ok a t d =>
      rw [hc] at h
      cases h
  | stop why t =>
      rw [hc] at h
      cases h
      refine (hx hc more hlt).imp_right fun hnot a t' d hok => ?_
      rw [run_withState] at hok
      cases hmore : x.run init (c.append more) with
      | ok a₁ t₁ e => exact hnot a₁ t₁ e hmore
      | stop why' t₁ =>
          rw [hmore] at hok
          cases hok

/-! ### Lists -/

theorem waits_runItems {close : UInt8} {item : Scan σ Unit} (hsteady : Steady .nowhere 1 1 item)
    (hitem : Waits cs item) : WaitsRun cs (runItems close item) := by
  intro s s' c n h more hlt
  fun_induction runItems close item s c with
  | case1 s c why s₁ hi =>
      cases h
      refine (hitem hi more hlt).imp_right fun hnot a t d hok => ?_
      rw [runItems_eq] at hok
      cases hmore : item.run s (c.append more) with
      | ok a₁ t₁ e => exact hnot a₁ t₁ e hmore
      | stop why' t₁ =>
          rw [hmore] at hok
          cases hok
  | case2 s c _ s₁ d hi hd =>
      have hone : runItems close item s c = .stop (.incomplete 1) s₁ := by
        rw [runItems_eq, hi]
        simp only [hd]
      cases h
      exact .inr (not_ok_of_one hone hlt)
  | case3 s c _ s₁ d hi tail hd _ ih =>
      have hc := hsteady s c
      rw [hi] at hc
      cases hc with
      | ok hmore =>
          have hrest : runItems close item s (c.append more) =
              runItems close item s₁ ((d.skipSpace.advance 1).append more) := by
            rw [runItems_eq, hmore more]
            simp only [Cursor.append_skipSpace hd, Cursor.rest_append, hd, List.cons_append, if_true,
              Cursor.append_advance_one hd]
          rw [hrest]
          refine (ih h).imp_left fun hpair => hpair.of_reaches ?_
          exact (item.reaches hi).trans (d.reaches_skipSpace.trans (Cursor.reaches_advance_one hd))
  | case4 => cases h
  | case5 => cases h

theorem waits_list {close : UInt8} {item : Scan σ Unit} (hsteady : Steady .nowhere 1 1 item)
    (hitem : Waits cs item) : Waits cs (list close item) := by
  intro s s' c n h more hlt
  change runList close item s c = _ at h
  change _ ∨ ∀ a t d, runList close item s (c.append more) ≠ _
  cases hc : c.skipSpace.rest with
  | nil =>
      have hone : runList close item s c = .stop (.incomplete 1) s := by simp only [runList, hc]
      cases hone.symm.trans h
      exact .inr (not_ok_of_one hone hlt)
  | cons b rest =>
      simp only [runList, hc] at h
      simp only [runList, Cursor.append_skipSpace hc, Cursor.rest_append, hc, List.cons_append]
      by_cases hb : b = close
      · rw [if_pos hb] at h
        cases h
      · rw [if_neg hb] at h ⊢
        refine (waits_runItems hsteady hitem h more hlt).imp_left fun hpair => ?_
        exact hpair.of_reaches c.reaches_skipSpace

theorem waits_elements {element : Scan σ Unit} (hsteady : Steady .nowhere 1 1 element)
    (h : Waits cs element) : Waits cs (elements element) :=
  waits_bind (steady_open rfl) (waits_read_of_one (asksOne_expect _)) fun _ => waits_list hsteady h

theorem waits_members {member : Bytes → Scan σ Unit}
    (hsteady : ∀ key, Steady .nowhere 1 1 (member key)) (h : ∀ key, Waits cs (member key)) :
    Waits cs (members member) := by
  have hkeyed : Waits cs (keyed member) :=
    waits_bind steady_rawString (waits_read_of_one asksOne_rawString) fun key =>
      waits_bind (steady_expect (j := 1) fun hk _ => hk.elim)
        (waits_read_of_one (asksOne_expect _)) fun _ => h key
  exact waits_bind (steady_open rfl) (waits_read_of_one (asksOne_expect _)) fun _ =>
    waits_list (steady_keyed hsteady) hkeyed

/-! ### Members -/

variable (options : Options)

/-- A value is looked for where the whitespace ends. More whitespace does not make it a value. -/
theorem waits_skipSpace {x : Scan σ α} (hx : Waits cs x) (hlooks : Looks x) :
    Waits cs (skipSpace >>= fun _ => x) := by
  have hrun : ∀ s c, (skipSpace >>= fun _ => x).run s c = x.run s c.skipSpace := fun _ _ => rfl
  intro s s' c n h more hlt
  cases hc : c.skipSpace.rest with
  | nil =>
      obtain ⟨s₁, hone⟩ := hlooks s c.skipSpace (by rw [Cursor.skipSpace_skipSpace, hc])
      rw [← hrun] at hone
      cases hone.symm.trans h
      exact .inr (not_ok_of_one hone hlt)
  | cons b rest =>
      rw [hrun] at h
      rw [hrun, Cursor.append_skipSpace hc]
      exact (hx h more hlt).imp_left fun hpair => hpair.of_reaches c.reaches_skipSpace

theorem waits_skipValue : Waits cs (skipValue options : Scan σ Unit) :=
  waits_read_of_one (asksOne_skipValue _)

theorem waits_timestamp : Waits cs (timestamp : Scan σ Int) :=
  waits_read_of_one (asksOne_integerIn _ _)

theorem waits_identifier : Waits cs (identifier : Scan σ Nat) := waits_read_of_one asksOne_identifier

theorem waits_quoted (arena : Arena) :
    Waits cs (read (quoted cs arena) (forward_quoted cs arena) : Scan σ (Span × Arena)) := by
  refine waits_read fun c n h more hlt => ?_
  cases hc : c.skipSpace.rest with
  | nil =>
      have hone : quoted cs arena c = .error (.incomplete 1) := by
        simp only [quoted, expect_of_nil hc]
      cases hone.symm.trans h
      refine .inr fun found hfound => ?_
      rw [List.eq_nil_of_length_eq_zero (Nat.lt_one_iff.1 hlt), Cursor.append_nil, hone] at hfound
      cases hfound
  | cons b rest =>
      by_cases hb : b = Byte.quote
      · subst hb
        have hmore : (c.append more).skipSpace.rest = Byte.quote :: (rest ++ more) := by
          rw [Cursor.append_skipSpace hc, Cursor.rest_append, hc, List.cons_append]
        have hreach : c.Reaches (c.skipSpace.advance 1) :=
          c.reaches_skipSpace.trans (Cursor.reaches_advance_one hc)
        rw [quoted_eq hc] at h
        rw [quoted_eq hmore, Cursor.append_skipSpace hc, Cursor.append_advance_one hc]
        split at h
        next why hdecode =>
          cases h
          refine (Quoted.endsInPair_or_not_decoded hdecode hlt).imp
            (fun hpair => hpair.of_reaches hreach) fun hnot found hfound => ?_
          split at hfound
          · cases hfound
          next hdecoded => exact hnot _ hdecoded
        · cases h
      · simp only [quoted, expect_of_cons hc, if_neg hb] at h
        cases h

theorem waits_text : Waits options.combineSurrogates (text options) :=
  waits_bind (steady_get (i := 1)) waits_get fun _ =>
    waits_bind (steady_read (steady_quoted _ _)) (waits_quoted _) fun _ =>
      waits_bind (steady_modify (i := 1) _) (waits_modify _) fun _ => waits_pure _

theorem waits_scratch : Waits options.combineSurrogates (scratch options) :=
  waits_bind (steady_get (i := 1)) waits_get fun _ =>
    waits_bind (steady_read (steady_quoted _ _)) (waits_quoted _) fun _ => waits_pure _

theorem waits_premiumMember (key : Bytes) : Waits cs (premiumMember options key) := by
  unfold premiumMember
  split
  · exact waits_bind steady_timestamp waits_timestamp fun _ => waits_modify _
  · split
    · exact waits_bind steady_timestamp waits_timestamp fun _ => waits_modify _
    · exact waits_skipValue options

theorem waits_likeMember (key : Bytes) : Waits cs (likeMember options key) := by
  unfold likeMember
  split
  · exact waits_bind steady_identifier waits_identifier fun _ => waits_modify _
  · split
    · exact waits_bind steady_timestamp waits_timestamp fun _ => waits_modify _
    · exact waits_skipValue options

theorem waits_like : Waits cs (like options) := by
  refine waits_bind (steady_position (i := 1)) waits_position fun offset => ?_
  apply waits_bind (steady_withState (steady_members (steady_likeMember options)))
    (waits_withState (waits_members (steady_likeMember options) (waits_likeMember options)))
  rintro ⟨_, id, timestamp⟩
  cases id with
  | none => exact waits_fail _
  | some id =>
      cases timestamp with
      | none => exact waits_fail _
      | some timestamp => exact waits_modify _

theorem waits_value (field : Field) : Waits options.combineSurrogates (value options field) := by
  cases field with
  | id => exact waits_bind steady_identifier waits_identifier fun _ => waits_modify _
  | sex =>
      refine waits_bind (steady_position (i := 1)) waits_position fun _ =>
        waits_bind (steady_scratch options) (waits_scratch options) fun bs => ?_
      cases Sex.ofCode? bs with
      | none => exact waits_fail _
      | some sex => exact waits_modify _
  | status =>
      refine waits_bind (steady_position (i := 1)) waits_position fun _ =>
        waits_bind (steady_scratch options) (waits_scratch options) fun bs => ?_
      cases Status.ofLiteral? bs with
      | none => exact waits_fail _
      | some status => exact waits_modify _
  | text field =>
      exact waits_bind (steady_text options) (waits_text options) fun _ => waits_modify _
  | birth => exact waits_bind steady_timestamp waits_timestamp fun _ => waits_modify _
  | joined => exact waits_bind steady_timestamp waits_timestamp fun _ => waits_modify _
  | premium =>
      exact waits_bind (steady_withState (steady_members (steady_premiumMember options)))
        (waits_withState (waits_members (steady_premiumMember options) (waits_premiumMember options)))
        fun _ => waits_modify _
  | interests =>
      have hsteady : Steady .nowhere 1 1
          (text options >>= fun span => modify fun account : Account => account.pushInterest span) :=
        steady_bind (steady_text options) fun _ => steady_modify _
      have hwaits : Waits options.combineSurrogates
          (text options >>= fun span => modify fun account : Account => account.pushInterest span) :=
        waits_bind (steady_text options) (waits_text options) fun _ => waits_modify _
      exact waits_bind (steady_modify (i := 1) _) (waits_modify _) fun _ =>
        waits_elements hsteady hwaits
  | likes =>
      exact waits_bind (steady_modify (i := 1) _) (waits_modify _) fun _ =>
        waits_elements (steady_like options) (waits_like options)

theorem waits_member (key : Bytes) : Waits options.combineSurrogates (member options key) := by
  unfold member
  cases Field.ofName? key with
  | none => exact waits_skipSpace (waits_skipValue options) (looks_skipValue options)
  | some field => exact waits_skipSpace (waits_value options field) (looks_value options field)

theorem waits_record : Waits options.combineSurrogates (record options) :=
  waits_members (steady_member options) (waits_member options)

end Scan

/-! ### The decoder -/

section Decode

variable {options : Options} {account : Account} {s : Bytes} {n : Nat}

theorem run_of_incomplete (h : (decode options account s).result = .ok (.incomplete n)) :
    ∃ account', (Scan.record options).run (emptied account) (.start s) =
      .stop (.incomplete n) account' := by
  rw [decode_eq] at h
  cases hrun : (Scan.record options).run (emptied account) (.start s) with
  | ok u account' d =>
      rw [hrun] at h
      cases h
  | stop why account' =>
      rw [hrun] at h
      cases why with
      | fault e => cases h
      | incomplete missing =>
          cases h
          exact ⟨account', rfl⟩

theorem run_of_complete (h : (decode options account s).result = .ok (.complete n)) :
    ∃ account' d, (Scan.record options).run (emptied account) (.start s) = .ok () account' d := by
  rw [decode_eq] at h
  cases hrun : (Scan.record options).run (emptied account) (.start s) with
  | ok u account' d => exact ⟨account', d, rfl⟩
  | stop why account' =>
      rw [hrun] at h
      cases why <;> cases h

end Decode

/-- **What is missing is a bound.** As long as fewer bytes follow than a string is said to lack it is
not decoded, and as long as fewer follow than a record is said to lack it is not complete. The one
exception is an input that ends within a pair. -/
theorem not_complete_of_missing (options : Options) :
    (∀ arena c n, Quoted.decode options.combineSurrogates arena c = .error (.incomplete n) →
      0 < n ∧ (¬ EndsInPair options.combineSurrogates n c.rest → ∀ more : Bytes, more.length < n →
        ∀ found, Quoted.decode options.combineSurrogates arena (c.append more) ≠ .ok found)) ∧
    ∀ account s n, (decode options account s).result = .ok (.incomplete n) →
      0 < n ∧ (¬ EndsInPair options.combineSurrogates n s → ∀ t : Bytes, t.length < n →
        ∀ m, (decode options account (s ++ t)).result ≠ .ok (.complete m)) := by
  refine ⟨fun arena c n h => ⟨Quoted.missing_pos h, fun hpair more hlt => ?_⟩, ?_⟩
  · exact (Quoted.endsInPair_or_not_decoded h hlt).resolve_left hpair
  · intro account s n h
    have hdecode : decode options account s = ⟨.ok (.incomplete n), (decode options account s).account⟩ :=
      congrArg (Decoded.mk · _) h
    refine ⟨pos_of_incomplete hdecode, fun hpair t hlt m hcomplete => ?_⟩
    obtain ⟨account₁, hrun⟩ := run_of_incomplete h
    obtain ⟨account₂, d, hmore⟩ := run_of_complete hcomplete
    rw [← Cursor.append_start] at hmore
    exact (Scan.waits_record options hrun t hlt).resolve_left hpair () account₂ d hmore

/-- Of the escape of a code unit two digits are given, and one more is not enough. -/
theorem not_complete_of_missing_digits :
    let bs := Utf8.ofString "\\u00"
    let more := Utf8.ofString "4"
    let s := Utf8.ofString "\x7b\"fname\":\"\\u00"
    (0 < 2 ∧ ∀ found, Quoted.decode true (Arena.withCapacity 8) ((Cursor.start bs).append more) ≠ .ok found) ∧
      0 < 2 ∧ ∀ m, (decode {} (.new {}) (s ++ more)).result ≠ .ok (.complete m) := by
  intro bs more s
  have hbound := not_complete_of_missing {}
  have hlt : more.length < 2 := by decide
  have hstring : Quoted.decode true (Arena.withCapacity 8) (.start bs) = .error (.incomplete 2) := by decide +kernel
  have hrecord : (decode {} (.new {}) s).result = .ok (.incomplete 2) := by decide +kernel
  obtain ⟨hpos, hopen⟩ := hbound.1 _ _ _ hstring
  obtain ⟨hpos', hopen'⟩ := hbound.2 _ _ _ hrecord
  refine ⟨⟨hpos, hopen ?_ more hlt⟩, hpos', hopen' ?_ more hlt⟩
  · exact not_endsInPair_of_le (by decide)
  · exact not_endsInPair_of_le (by decide)

/-- Behind the first half of a pair six bytes are asked for, but the string may end there. -/
theorem complete_before_missing :
    let bs := Utf8.ofString "\\ud83d"
    let s := Utf8.ofString "\x7b\"fname\":\"\\ud83d"
    (Quoted.decode true (Arena.withCapacity 8) (.start bs) = .error (.incomplete 6) ∧
      (Quoted.decode true (Arena.withCapacity 8) (.start (bs ++ [Byte.quote]))).isOk) ∧
    (decode {} (.new {}) s).result = .ok (.incomplete 6) ∧
      (decode {} (.new {}) (s ++ [Byte.quote, Byte.closeBrace])).result = .ok (.complete 18) := by
  decide +kernel

end Intake.Record
