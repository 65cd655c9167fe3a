import Intake.Proofs.Record.Grammar.Quoted
import Intake.Proofs.Record.Grammar.Skip
import Intake.Proofs.Record.Rendering.Decode

/-!
# What the decoder accepts is a record

A scan that succeeds has read a gap and a text of its language. For a list this is an induction over
the items that were read, with what is known of the state carried along: a like is complete when
the state says so, and the state says so only because the keys were there.
-/

namespace Intake.Record

namespace Scan

variable {σ α β : Type}

theorem run_bind_eq_ok {x : Scan σ α} {f : α → Scan σ β} {s s' : σ} {c d : Cursor} {b : β}
    (h : (x >>= f).run s c = .ok b s' d) :
    ∃ a s₁ e, x.run s c = .ok a s₁ e ∧ (f a).run s₁ e = .ok b s' d := by
  rw [run_bind] at h
  split at h
  next a s₁ e hx => exact ⟨a, s₁, e, hx, h⟩
  · cases h

theorem run_read_eq_ok {f : Cursor → Read α} {hf : Forward f} {s s' : σ} {c d : Cursor} {a : α}
    (h : (read f hf : Scan σ α).run s c = .ok a s' d) : f c = .ok (a, d) ∧ s' = s := by
  rw [run_read] at h
  split at h
  next hread =>
    cases h
    exact ⟨hread, rfl⟩
  · cases h

/-- Whenever the scan succeeds it has read a text of `L`, and whitespace in front of it. -/
def Accepts (L : Bytes → Prop) (x : Scan σ α) : Prop :=
  ∀ ⦃s s' : σ⦄ ⦃c d : Cursor⦄ ⦃a : α⦄, x.run s c = .ok a s' d →
    ∃ gap bs, Gap gap ∧ c.rest = gap ++ (bs ++ d.rest) ∧ L bs

variable {L L' : Bytes → Prop}

theorem Accepts.mono {x : Scan σ α} (h : Accepts L x) (hmono : ∀ bs, L bs → L' bs) :
    Accepts L' x := by
  intro s s' c d a hrun
  obtain ⟨gap, bs, hgap, hc, hbs⟩ := h hrun
  exact ⟨gap, bs, hgap, hc, hmono bs hbs⟩

theorem accepts_read {f : Cursor → Read α} {hf : Forward f}
    (h : ∀ {c d : Cursor} {a : α}, f c = .ok (a, d) → ∃ bs, c.skipSpace.rest = bs ++ d.rest ∧ L bs) :
    Accepts L (read f hf : Scan σ α) := by
  intro s s' c d a hrun
  obtain ⟨gap, hgap, hc⟩ := exists_gap c
  obtain ⟨bs, hbs, hL⟩ := h (run_read_eq_ok hrun).1
  exact ⟨gap, bs, hgap, by rw [hc, hbs], hL⟩

theorem accepts_identifier : Accepts IdentifierText (identifier : Scan σ Nat) :=
  accepts_read identifierText_of_identifier

theorem accepts_timestamp : Accepts TimestampText (timestamp : Scan σ Int) :=
  accepts_read timestampText_of_timestamp

theorem accepts_skipValue (options : Options) :
    Accepts (SkippedText options) (skipValue options : Scan σ Unit) := fun _ _ _ _ _ hrun =>
  skippedText_of_skipValue (run_read_eq_ok hrun).1

theorem Accepts.modify {x : Scan σ α} (h : Accepts L x) (f : α → σ → σ) :
    Accepts L (x >>= fun a => Scan.modify (f a)) := by
  intro s s' c d a hrun
  obtain ⟨a, s₁, e, hx, hmodify⟩ := run_bind_eq_ok hrun
  cases hmodify
  exact h hx

theorem Accepts.skipSpace {x : Scan σ α} (h : Accepts L x) :
    Accepts L (Scan.skipSpace >>= fun _ => x) := by
  intro s s' c d a hrun
  obtain ⟨gap, hgap, hc⟩ := exists_gap c
  obtain ⟨more, bs, hmore, hrest, hbs⟩ := h (show x.run s c.skipSpace = .ok a s' d from hrun)
  exact ⟨gap ++ more, bs, hgap.append hmore, by rw [hc, hrest, List.append_assoc], hbs⟩

/-! ### Lists -/

section Lists

variable {R : β → Bytes → Prop} {Q : List β → σ → Prop} {item : Scan σ Unit} {bracket : Bracket}

/-- Whenever the scan succeeds it has read one more item, and `Q` knows of the items that were read. -/
def Gathers (R : β → Bytes → Prop) (Q : List β → σ → Prop) (item : Scan σ Unit) : Prop :=
  ∀ ⦃done : List β⦄ ⦃s s' : σ⦄ ⦃c d : Cursor⦄ ⦃u : Unit⦄, Q done s → item.run s c = .ok u s' d →
    ∃ b gap bs, Gap gap ∧ c.rest = gap ++ (bs ++ d.rest) ∧ R b bs ∧ Q (done ++ [b]) s'

theorem gap_items {items : List β} {gap text : Bytes} (hgap : Gap gap) (h : Items R items text) :
    Items R items (gap ++ text) := by
  cases h with
  | last hbefore h hafter =>
      rw [← List.append_assoc]
      exact .last (hgap.append hbefore) h hafter
  | more hbefore h hafter hrest =>
      rw [← List.append_assoc]
      exact .more (hgap.append hbefore) h hafter hrest

theorem items_of_runItems (hitem : Gathers R Q item) {s s' : σ} {c d : Cursor} {u : Unit}
    (h : runItems bracket.closing item s c = .ok u s' d) {done : List β} (hs : Q done s) :
    ∃ items text, c.rest = text ++ bracket.closing :: d.rest ∧ Items R items text ∧
      Q (done ++ items) s' := by
  fun_induction runItems bracket.closing item s c generalizing done with
  | case1 => cases h
  | case2 => cases h
  | case3 s c u' s₁ d₁ hrun tail hd _ ih =>
      obtain ⟨b, before, bs, hbefore, hc, hb, hs₁⟩ := hitem hs hrun
      obtain ⟨after, hafter, hd₁⟩ := exists_gap d₁
      obtain ⟨items, text, hrest, hitems, hs'⟩ := ih h hs₁
      rw [Cursor.rest_advance_one hd] at hrest
      refine ⟨b :: items, _, ?_, .more hbefore hb hafter hitems, ?_⟩
      · rw [hc, hd₁, hd, hrest]
        simp only [List.append_assoc, List.cons_append]
      · rw [List.append_cons]
        exact hs'
  | case4 s c u' s₁ d₁ hrun tail hd _ _ =>
      cases h
      obtain ⟨b, before, bs, hbefore, hc, hb, hs₁⟩ := hitem hs hrun
      obtain ⟨after, hafter, hd₁⟩ := exists_gap d₁
      refine ⟨[b], _, ?_, .last hbefore hb hafter, hs₁⟩
      rw [hc, hd₁, hd, Cursor.rest_advance_one hd]
      simp only [List.append_assoc]
  | case5 => cases h

theorem listing_of_run (bracket : Bracket) (hitem : Gathers R Q item) {s s' : σ} {c d : Cursor}
    {u : Unit} (h : (expect bracket.opening >>= fun _ => list bracket.closing item).run s c = .ok u s' d)
    (hs : Q [] s) :
    ∃ items gap bs, Gap gap ∧ c.rest = gap ++ (bs ++ d.rest) ∧ Listing bracket R items bs ∧
      Q items s' := by
  obtain ⟨_, s₁, body, hexpect, hlist⟩ := run_bind_eq_ok h
  obtain ⟨hopen, rfl⟩ := run_read_eq_ok hexpect
  obtain ⟨before, hbefore, hc⟩ := exists_gap c
  obtain ⟨gap, hgap, hbody⟩ := exists_gap body
  have hfront : c.rest = before ++ (bracket.opening :: (gap ++ body.skipSpace.rest)) := by
    rw [hc, rest_of_expect hopen, hbody]
  replace hlist : runList bracket.closing item s₁ body = .ok u s' d := hlist
  unfold runList at hlist
  split at hlist
  · cases hlist
  next b rest hb =>
  split at hlist
  next hclose =>
    cases hlist
    refine ⟨[], before, _, hbefore, ?_, .empty hgap, hs⟩
    rw [hfront, hb, hclose, Cursor.rest_advance_one hb]
    simp
  next hopen =>
    obtain ⟨items, text, htext, hitems, hs'⟩ := items_of_runItems hitem hlist hs
    refine ⟨items, before, bracket.opening :: (gap ++ text ++ [bracket.closing]), hbefore, ?_,
      .full (gap_items hgap hitems), hs'⟩
    rw [hfront, htext]
    simp

/-- A member is read as its key, its colon and its value. -/
theorem gathers_keyed {V : Bytes → Bytes → Prop} {Q : List Bytes → σ → Prop}
    {member : Bytes → Scan σ Unit}
    (h : ∀ {done : List Bytes} {key : Bytes} {s s' : σ} {c d : Cursor} {u : Unit}, Q done s →
      (member key).run s c = .ok u s' d →
        ∃ gap bs, Gap gap ∧ c.rest = gap ++ (bs ++ d.rest) ∧ V key bs ∧ Q (done ++ [key]) s') :
    Gathers (Entry V) Q (keyed member) := by
  intro done s s' c d u hs hrun
  obtain ⟨key, s₁, afterKey, hkey, hrun⟩ := run_bind_eq_ok hrun
  obtain ⟨_, s₂, afterColon, hcolon, hvalue⟩ := run_bind_eq_ok hrun
  obtain ⟨hraw, rfl⟩ := run_read_eq_ok hkey
  obtain ⟨hexpect, rfl⟩ := run_read_eq_ok hcolon
  obtain ⟨gap, hgap, hc⟩ := exists_gap c
  obtain ⟨before, hbefore, hafterKey⟩ := exists_gap afterKey
  obtain ⟨after, bs, hafter, hafterColon, hV, hs'⟩ := h hs hvalue
  obtain ⟨hquotes, hsealed⟩ := rest_of_rawString hraw
  refine ⟨key, gap, _, hgap, ?_, ⟨hsealed, .mk hbefore hafter hV⟩, hs'⟩
  rw [hc, hquotes, hafterKey, rest_of_expect hexpect, hafterColon]
  simp

theorem gathers_members {V : Bytes → Bytes → Prop} {member : Bytes → Scan σ Unit}
    (h : ∀ key, Accepts (V key) (member key)) : Gathers (Entry V) (fun _ _ => True) (keyed member) := by
  apply gathers_keyed
  intro done key s s' c d u _ hrun
  obtain ⟨gap, bs, hgap, hc, hV⟩ := h key hrun
  exact ⟨gap, bs, hgap, hc, hV, trivial⟩

theorem accepts_members {V : Bytes → Bytes → Prop} {member : Bytes → Scan σ Unit}
    (h : ∀ key, Accepts (V key) (member key)) :
    Accepts (fun bs => ∃ keys, Listing .brace (Entry V) keys bs) (members member) := by
  intro s s' c d u hrun
  obtain ⟨keys, gap, bs, hgap, hc, hbs, -⟩ := listing_of_run .brace (gathers_members h) hrun trivial
  exact ⟨gap, bs, hgap, hc, keys, hbs⟩

end Lists

/-! ### Texts -/

variable {options : Options} {s s' : Account} {c d : Cursor}

theorem quotes_of_text {span : Span} (h : (text options).run s c = .ok span s' d) :
    ∃ value gap bs, Gap gap ∧ c.rest = gap ++ (bs ++ d.rest) ∧
      Quotes options.combineSurrogates value bs := by
  rw [text_run] at h
  split at h
  · cases h
  next hquoted =>
    cases h
    obtain ⟨gap, hgap, hc⟩ := exists_gap c
    obtain ⟨value, bs, hbs, hquotes, -⟩ := quotes_of_quoted hquoted
    exact ⟨value, gap, bs, hgap, by rw [hc, hbs], hquotes⟩

/-- A text that is only looked at is the one that is seen, unless nothing is seen. -/
theorem quotes_of_scratch {seen : Bytes} (h : (scratch options).run s c = .ok seen s' d) :
    ∃ value gap bs, Gap gap ∧ c.rest = gap ++ (bs ++ d.rest) ∧
      Quotes options.combineSurrogates value bs ∧ (seen = value ∨ seen = []) := by
  rw [scratch_run] at h
  split at h
  · cases h
  next hquoted =>
    cases h
    obtain ⟨gap, hgap, hc⟩ := exists_gap c
    obtain ⟨value, bs, hbs, hquotes, rfl, hcontents⟩ := quotes_of_quoted hquoted
    exact ⟨value, gap, bs, hgap, by rw [hc, hbs], hquotes, Arena.view_finish hcontents⟩

/-! ### Values -/

variable (options)

theorem accepts_sex : Accepts (FieldText options .sex) (sex options) := by
  intro s s' c d u hrun
  obtain ⟨offset, s₁, e, hposition, hrun⟩ := run_bind_eq_ok hrun
  cases hposition
  obtain ⟨seen, s₂, e, hscratch, hrun⟩ := run_bind_eq_ok hrun
  split at hrun
  next value hvalue =>
    cases hrun
    obtain rfl := Sex.ofCode?_eq_some_iff.1 hvalue
    have hne : Utf8.ofString value.code ≠ [] := by cases value <;> decide
    obtain ⟨_, gap, bs, hgap, hc, hquotes, hseen⟩ := quotes_of_scratch hscratch
    exact ⟨gap, bs, hgap, hc, value, hseen.resolve_right hne ▸ hquotes⟩
  · cases hrun

theorem accepts_status : Accepts (FieldText options .status) (status options) := by
  intro s s' c d u hrun
  obtain ⟨offset, s₁, e, hposition, hrun⟩ := run_bind_eq_ok hrun
  cases hposition
  obtain ⟨seen, s₂, e, hscratch, hrun⟩ := run_bind_eq_ok hrun
  split at hrun
  next value hvalue =>
    cases hrun
    obtain rfl := Status.ofLiteral?_eq_some_iff.1 hvalue
    have hne : Utf8.ofString value.literal ≠ [] := by cases value <;> decide
    obtain ⟨_, gap, bs, hgap, hc, hquotes, hseen⟩ := quotes_of_scratch hscratch
    exact ⟨gap, bs, hgap, hc, value, hseen.resolve_right hne ▸ hquotes⟩
  · cases hrun

theorem accepts_premiumMember (key : Bytes) :
    Accepts (PremiumText options key) (premiumMember options key) := by
  unfold premiumMember
  split
  next hstart => exact (accepts_timestamp.modify _).mono fun bs => .time .start hstart
  next hstart =>
    split
    next hfinish => exact (accepts_timestamp.modify _).mono fun bs => .time .finish hfinish
    next hfinish =>
      refine (accepts_skipValue options).mono fun bs => .other fun e => ?_
      cases e with
      | start => exact hstart
      | finish => exact hfinish

theorem accepts_premium : Accepts (FieldText options .premium) (premium options) := by
  intro s s' c d u hrun
  obtain ⟨⟨_, found⟩, s₁, e, hmembers, hrun⟩ := run_bind_eq_ok hrun
  cases hrun
  rw [run_withState] at hmembers
  split at hmembers
  next hmembers' =>
    cases hmembers
    exact accepts_members (accepts_premiumMember options) hmembers'
  · cases hmembers

theorem gathers_interest : Gathers (Quotes options.combineSurrogates) (fun _ _ => True) (do
    let span ← Scan.text options
    modify (·.pushInterest span)) := by
  intro done s s' c d u _ hrun
  obtain ⟨span, s₁, e, htext, hrun⟩ := run_bind_eq_ok hrun
  cases hrun
  obtain ⟨value, gap, bs, hgap, hc, hquotes⟩ := quotes_of_text htext
  exact ⟨value, gap, bs, hgap, hc, hquotes, trivial⟩

theorem accepts_interests : Accepts (FieldText options .interests) (interests options) := by
  intro s s' c d u hrun
  obtain ⟨_, s₁, e, hclear, hrun⟩ := run_bind_eq_ok hrun
  cases hclear
  obtain ⟨texts, gap, bs, hgap, hc, hbs, -⟩ :=
    listing_of_run .square (gathers_interest options) hrun trivial
  exact ⟨gap, bs, hgap, hc, texts, hbs⟩

/-- The halves of a like that were found have their keys among those that were read. -/
def Found (keys : List Bytes) (found : PartialLike) : Prop :=
  (found.id.isSome → likeIdKey ∈ keys) ∧ (found.timestamp.isSome → likeTimestampKey ∈ keys)

theorem found_nil : Found [] ({} : PartialLike) :=
  ⟨fun h => (by cases h), fun h => (by cases h)⟩

theorem gathers_likeMember : Gathers (Entry (LikeText options)) Found (keyed (likeMember options)) := by
  apply gathers_keyed
  intro keys key found found' c d u hfound hrun
  have hmore : Found (keys ++ [key]) found := ⟨fun h => List.mem_append_left _ (hfound.1 h),
    fun h => List.mem_append_left _ (hfound.2 h)⟩
  have hself : key ∈ keys ++ [key] := List.mem_append_right _ (List.mem_singleton_self key)
  unfold likeMember at hrun
  split at hrun
  next hid =>
    obtain ⟨gap, bs, hgap, hc, hbs⟩ := (accepts_identifier.modify _) hrun
    obtain ⟨n, found₁, e, hread, hrun⟩ := run_bind_eq_ok hrun
    cases hrun
    obtain ⟨-, rfl⟩ := run_read_eq_ok hread
    exact ⟨gap, bs, hgap, hc, .id hid hbs, fun _ => hid ▸ hself, hmore.2⟩
  next hid =>
    split at hrun
    next htimestamp =>
      obtain ⟨gap, bs, hgap, hc, hbs⟩ := (accepts_timestamp.modify _) hrun
      obtain ⟨t, found₁, e, hread, hrun⟩ := run_bind_eq_ok hrun
      cases hrun
      obtain ⟨-, rfl⟩ := run_read_eq_ok hread
      exact ⟨gap, bs, hgap, hc, .timestamp htimestamp hbs, hmore.1, fun _ => htimestamp ▸ hself⟩
    next htimestamp =>
      obtain ⟨gap, bs, hgap, hc, hbs⟩ := accepts_skipValue options hrun
      obtain ⟨-, rfl⟩ := run_read_eq_ok hrun
      exact ⟨gap, bs, hgap, hc, .other hid htimestamp hbs, hmore⟩

theorem gathers_like : Gathers (WholeLike options) (fun _ _ => True) (like options) := by
  intro done s s' c d u _ hrun
  obtain ⟨offset, s₁, e, hposition, hrun⟩ := run_bind_eq_ok hrun
  cases hposition
  obtain ⟨⟨_, found⟩, s₂, e, hmembers, hrun⟩ := run_bind_eq_ok hrun
  rw [run_withState] at hmembers
  split at hmembers
  next hlist =>
    cases hmembers
    obtain ⟨keys, gap, bs, hgap, hc, hbs, hid, htimestamp⟩ :=
      listing_of_run .brace (gathers_likeMember options) hlist found_nil
    dsimp only at hrun
    split at hrun
    next toId timestamp hfoundId hfoundTimestamp =>
      cases hrun
      exact ⟨keys, gap, bs, hgap, hc,
        ⟨hbs, hid (by rw [hfoundId]; rfl), htimestamp (by rw [hfoundTimestamp]; rfl)⟩, trivial⟩
    · cases hrun
  · cases hmembers

theorem accepts_likes : Accepts (FieldText options .likes) (likes options) := by
  intro s s' c d u hrun
  obtain ⟨_, s₁, e, hclear, hrun⟩ := run_bind_eq_ok hrun
  cases hclear
  obtain ⟨likes, gap, bs, hgap, hc, hbs, -⟩ :=
    listing_of_run .square (gathers_like options) hrun trivial
  exact ⟨gap, bs, hgap, hc, likes, hbs⟩

/-- The value of a field is in the language of the field. -/
theorem accepts_value (field : Field) : Accepts (FieldText options field) (value options field) := by
  cases field with
  | id => exact accepts_identifier.modify _
  | birth => exact accepts_timestamp.modify _
  | joined => exact accepts_timestamp.modify _
  | sex => exact accepts_sex options
  | status => exact accepts_status options
  | text field =>
      intro s s' c d u hrun
      obtain ⟨span, s₁, e, htext, hrun⟩ := run_bind_eq_ok hrun
      cases hrun
      obtain ⟨value, gap, bs, hgap, hc, hquotes⟩ := quotes_of_text htext
      exact ⟨gap, bs, hgap, hc, value, hquotes⟩
  | premium => exact accepts_premium options
  | interests => exact accepts_interests options
  | likes => exact accepts_likes options

theorem key_of_ofName? {key : Bytes} {field : Field} (h : Field.ofName? key = some field) :
    key = field.key := by
  have hnames : ∀ entry ∈ Field.names, entry.1 = entry.2.key := by decide
  obtain ⟨before, after, hentry, -⟩ := List.lookup_eq_some_iff.1 h
  exact hnames (key, field) (hentry ▸ List.mem_append_right _ List.mem_cons_self)

theorem accepts_member (key : Bytes) : Accepts (ValueText options key) (member options key) := by
  refine Accepts.skipSpace ?_
  split
  next field hfield =>
    exact (accepts_value options field).mono fun bs => .field field (key_of_ofName? hfield)
  next hnone =>
    refine (accepts_skipValue options).mono fun bs => .other fun field hkey => ?_
    rw [hkey, ofName?_key] at hnone
    cases hnone

end Scan

/-- **The decoder accepts records only.** Where it reports that a record is complete, what stands
before that place is a record, and nothing of what is behind is part of it. -/
theorem recordText_of_complete {options : Options} {account : Account} {input : Bytes} {n : Nat}
    (h : (decode options account input).result = .ok (.complete n)) :
    n ≤ input.length ∧ RecordText options (input.take n) := by
  refine ⟨(consumed_of_decode h).2, ?_⟩
  rw [decode_eq] at h
  unfold Reply.decoded at h
  split at h
  next u s after hrun =>
    cases h
    obtain ⟨gap, object, hgap, hinput, keys, hobject⟩ :=
      Scan.accepts_members (Scan.accepts_member options) hrun
    have hinput' : input = (gap ++ object) ++ after.rest := by
      rw [List.append_assoc]
      exact hinput
    have hlength := congrArg List.length hinput'
    have hpos := (Scan.reaches _ hrun).pos_add_length
    simp only [Cursor.start, List.length_append] at hpos hlength
    have htake : input.take after.pos = gap ++ object := by
      rw [hinput', List.take_left' (by rw [List.length_append]; omega)]
    exact ⟨gap, object, keys, hgap, htake, hobject⟩
  · cases h
  · cases h

/-- A member that no field asks for, and a like whose halves stand in turn with another member. What
follows the record is no part of it. -/
theorem recordText_of_complete_nested :
    let bs := Utf8.ofString "\x7b\"x\":[1,\x7b:\"]\"\x7d,,]," ++
      Utf8.ofString "\"likes\":[\x7b\"ts\":-5,\"z\":tru\x7be,\"id\":7\x7d]\x7d tail"
    (decode {} (.new {}) bs).result = .ok (.complete 55) ∧ RecordText {} (bs.take 55) := by
  intro bs
  have hcomplete : (decode {} (.new {}) bs).result = .ok (.complete 55) := by decide +kernel
  exact ⟨hcomplete, (recordText_of_complete hcomplete).2⟩

end Intake.Record
