import Intake.Proofs.Account
import Intake.Proofs.Record.Keeps
import Intake.Proofs.Record.Rendering.Account
import Intake.Proofs.Record.Rendering.List
import Intake.Proofs.Record.Rendering.Quoted

/-!
# Decoding a record that was rendered

Decoding undoes rendering. Each reader of a value leaves an account that holds the value and whose other
fields are as they were, so after every member the account holds what the members so far have given.

No text is longer than its rendering, so what is written to the arena never overtakes what is read. An
arena that the whole input would fit has room for every text, also for those that are only looked
at.
-/

namespace Intake.Record

/-- The arena is not ahead of the input, which would fit it as a whole. -/
def Room (account : Account) (c : Cursor) : Prop :=
  account.arena.cursor ≤ c.pos ∧ c.pos + c.rest.length ≤ account.arena.capacity

theorem Room.forward {account : Account} {c d : Cursor} (h : Room account c) (hcd : c.Reaches d) :
    Room account d := by
  have hsum := hcd.pos_add_length
  have hle := hcd.length_le
  exact ⟨by have := h.1; omega, by have := h.2; omega⟩

namespace Scan

variable {options : Options} {account : Account} {c : Cursor} {bs rest : Bytes}

/-! ### Texts -/

/-- What becomes of the arena when a text is written to it. -/
structure Written (account : Account) (text : Bytes) (c : Cursor) (arena : Arena) : Prop where
  keeps : account.arena.Extends arena
  get? : arena.get? (arena.finish account.arena.cursor) = some text
  le : account.arena.cursor ≤ arena.cursor
  room : Room { account with arena } c

theorem quoted_of_room {text : Bytes} (h : Quotes options.combineSurrogates text bs)
    (hc : c.skipSpace.rest = bs ++ rest) (hroom : Room account c.skipSpace) :
    ∃ arena, quoted options.combineSurrogates account.arena c =
        .ok ((arena.finish account.arena.cursor, arena), c.skipSpace.advance bs.length) ∧
      Written account text (c.skipSpace.advance bs.length) arena := by
  have hlength : c.skipSpace.rest.length = bs.length + rest.length := by
    rw [hc, List.length_append]
  obtain ⟨hbehind, hfits⟩ := hroom
  have hspace : account.arena.cursor + bs.length ≤ account.arena.capacity := by omega
  obtain ⟨arena, hquoted, hcontents, hcapacity, hle⟩ := quoted_of_quotes h hc hspace
  have hcursor : arena.cursor = account.arena.cursor + text.length := by
    rw [← Arena.length_contents, hcontents, List.length_append, Arena.length_contents]
  refine ⟨arena, hquoted, ⟨⟨text, hcontents.symm⟩, hcapacity⟩,
    Arena.get?_finish hcontents (by omega), by omega, ?_, ?_⟩
  · dsimp only [Cursor.advance_pos]
    omega
  · rw [Cursor.rest_advance hc]
    dsimp only [Cursor.advance_pos]
    omega

theorem text_of_quotes {text : Bytes} (h : Quotes options.combineSurrogates text bs)
    (hc : c.skipSpace.rest = bs ++ rest) (hroom : Room account c.skipSpace) :
    ∃ arena, (Scan.text options).run account c =
        .ok (arena.finish account.arena.cursor) { account with arena }
          (c.skipSpace.advance bs.length) ∧
      Written account text (c.skipSpace.advance bs.length) arena := by
  obtain ⟨arena, hquoted, hwritten⟩ := quoted_of_room h hc hroom
  exact ⟨arena, by rw [text_run, hquoted], hwritten⟩

theorem scratch_of_quotes {text : Bytes} (h : Quotes options.combineSurrogates text bs)
    (hc : c.skipSpace.rest = bs ++ rest) (hroom : Room account c.skipSpace) :
    (scratch options).run account c = .ok text account (c.skipSpace.advance bs.length) := by
  obtain ⟨arena, hquoted, hwritten⟩ := quoted_of_room h hc hroom
  rw [scratch_run, hquoted]
  simp only [Arena.view, hwritten.get?, Option.getD_some]

/-! ### Values -/

/-- What the account holds more once the value of a field has been read. -/
structure Gains (field : Field) (value : field.Value) (a b : Account) (c : Cursor) : Prop where
  holds : Holds b field (some value)
  frame : Frame field a b
  room : Room b c

theorem identifier_run {σ : Type} {s : σ} {n : Identifier} (h : Numeral n.1 bs)
    (hc : c.skipSpace.rest = bs ++ rest) (hends : Ends rest) :
    (identifier : Scan σ Nat).run s c = .ok n.1 s (c.skipSpace.advance bs.length) := by
  simp only [identifier, read, identifier_of_numeral h hc hends]

theorem timestamp_run {σ : Type} {s : σ} {t : Timestamp} (h : Numeral t.1 bs)
    (hc : c.skipSpace.rest = bs ++ rest) (hends : Ends rest) :
    (timestamp : Scan σ Int).run s c = .ok t.1 s (c.skipSpace.advance bs.length) := by
  simp only [timestamp, read, timestamp_of_numeral h hc hends]

/-- The reader of the field undoes the renderings of its values. -/
def Undoes (options : Options) (field : Field) : Prop :=
  ∀ {v : field.Value} {bs rest : Bytes} {account : Account} {c : Cursor},
    field.Renders options.combineSurrogates v bs → c.skipSpace.rest = bs ++ rest → Ends rest →
    Room account c.skipSpace → ∃ b, (value options field).run account c =
      .ok () b (c.skipSpace.advance bs.length) ∧
      Gains field v account b (c.skipSpace.advance bs.length)

variable (options)

theorem undoes_id : Undoes options .id := by
  intro v bs rest account c h hc hends hroom
  refine ⟨{ account with id := v.1 }, ?_, rfl, fun other hne w hold => ?_,
    hroom.forward (Cursor.reaches_advance_append hc)⟩
  · rw [value, run_bind, identifier_run h hc hends]
    rfl
  · cases other <;> first | exact absurd rfl hne | exact hold

theorem undoes_sex : Undoes options .sex := by
  intro (v : Sex) bs rest account c h hc hends hroom
  refine ⟨{ account with sex := some v }, ?_, rfl, fun other hne w hold => ?_,
    hroom.forward (Cursor.reaches_advance_append hc)⟩
  · simp only [value, sex, run_bind, position, scratch_of_quotes h hc hroom, Sex.ofCode?_code, modify]
  · cases other <;> first | exact absurd rfl hne | exact hold

theorem undoes_status : Undoes options .status := by
  intro (v : Status) bs rest account c h hc hends hroom
  refine ⟨{ account with status := some v }, ?_, rfl, fun other hne w hold => ?_,
    hroom.forward (Cursor.reaches_advance_append hc)⟩
  · simp only [value, status, run_bind, position, scratch_of_quotes h hc hroom, Status.ofLiteral?_literal,
      modify]
  · cases other <;> first | exact absurd rfl hne | exact hold

theorem undoes_birth : Undoes options .birth := by
  intro v bs rest account c h hc hends hroom
  refine ⟨{ account with birth := v.1 }, ?_, rfl, fun other hne w hold => ?_,
    hroom.forward (Cursor.reaches_advance_append hc)⟩
  · rw [value, run_bind, timestamp_run h hc hends]
    rfl
  · cases other <;> first | exact absurd rfl hne | exact hold

theorem undoes_joined : Undoes options .joined := by
  intro v bs rest account c h hc hends hroom
  refine ⟨{ account with joined := v.1 }, ?_, rfl, fun other hne w hold => ?_,
    hroom.forward (Cursor.reaches_advance_append hc)⟩
  · rw [value, run_bind, timestamp_run h hc hends]
    rfl
  · cases other <;> first | exact absurd rfl hne | exact hold

theorem undoes_text (field : TextField) : Undoes options (.text field) := by
  intro v bs rest account c h hc hends hroom
  obtain ⟨arena, hrun, hwritten⟩ := text_of_quotes h hc hroom
  refine ⟨({ account with arena } : Account).setText field (arena.finish account.arena.cursor), ?_,
    ?_, fun other hne w hold => ?_, hwritten.room⟩
  · rw [value, run_bind, hrun]
    rfl
  · show arena.get? (Account.texts _ field) = some v
    rw [Account.texts_setText_self]
    exact hwritten.get?
  · have hextended := hold.extend hwritten.keeps
    cases other with
    | text other =>
        have hother : other ≠ field := fun h => hne (congrArg Field.text h)
        cases w with
        | none => exact (Account.texts_setText_of_ne _ _ hother).trans hextended
        | some bytes =>
            show arena.get? (Account.texts _ other) = some bytes
            rw [Account.texts_setText_of_ne _ _ hother]
            exact hextended
    | id | sex | status | birth | joined | premium | interests | likes => exact hextended

/-! ### Premium times -/

/-- The last time given for an end. -/
def endOf (ends : List (End × Timestamp)) (e : End) : Int :=
  (ends.reverse.lookup e).elim absentTimestamp (·.1)

theorem endOf_concat (ends : List (End × Timestamp)) (e : End) (t : Timestamp) (e' : End) :
    endOf (ends ++ [(e, t)]) e' = if e' = e then t.1 else endOf ends e' := by
  rw [endOf, List.reverse_append, List.reverse_singleton, List.singleton_append, List.lookup_cons]
  cases e <;> cases e' <;> rfl

theorem premiumOf_eq (ends : List (End × Timestamp)) :
    let found : Premium := ⟨endOf ends .start, endOf ends .finish⟩
    (if found.isPresent then found else .absent) = premiumOf ends := by
  cases hstart : ends.reverse.lookup .start with
  | none => simp [premiumOf, endOf, Premium.isPresent, hstart]
  | some start =>
      cases hfinish : ends.reverse.lookup .finish with
      | none => simp [premiumOf, endOf, Premium.isPresent, hstart, hfinish]
      | some finish =>
          by_cases hs : start.1 = absentTimestamp
          · simp [premiumOf, endOf, Premium.isPresent, hstart, hfinish, hs]
          · simp [premiumOf, endOf, Premium.isPresent, hstart, hfinish, hs, ite_not]

theorem takes_ends : Takes (fun part : End × Timestamp => Member part.1.key (Numeral part.2.1))
    (fun done found _ => found = ⟨endOf done .start, endOf done .finish⟩)
    (keyed (premiumMember options)) := by
  refine takes_keyed (fun part => ?_) (fun h _ => h) solid_of_numeral ?_
  · exact sealed_of_plain (by cases part.1 <;> decide)
  · rintro done ⟨e, t⟩ bs rest found c h hc hends rfl
    have hfinish : Scan.finishKey ≠ Scan.startKey := by decide
    cases e with
    | start =>
        refine ⟨_, ?_, rfl⟩
        rw [premiumMember, End.key, if_pos rfl, run_bind, timestamp_run h hc hends]
        simp [modify, endOf_concat]
    | finish =>
        refine ⟨_, ?_, rfl⟩
        rw [premiumMember, End.key, if_neg hfinish, if_pos rfl, run_bind, timestamp_run h hc hends]
        simp [modify, endOf_concat]

theorem undoes_premium : Undoes options .premium := by
  intro (v : List (End × Timestamp)) bs rest account c h hc hends hroom
  obtain ⟨found, hrun, rfl⟩ := list_of_listing (takes_ends options) h (s := .absent) hc rfl
  refine ⟨{ account with premium := premiumOf v }, ?_, rfl, fun other hne w hold => ?_,
    hroom.forward (Cursor.reaches_advance_append hc)⟩
  · have hmembers : (members (premiumMember options)).run .absent c = _ := hrun
    simp only [value, premium, run_bind, withState, hmembers, modify]
    rw [premiumOf_eq]
  · cases other <;> first | exact absurd rfl hne | exact hold

/-! ### Interests -/

/-- The interests that were read so far. Those that were listed before are gone. -/
structure Interested (base : Account) (done : List Bytes) (s : Account) (c : Cursor) : Prop where
  room : Room s c
  frame : Frame .interests base s
  spans : s.interestSpans.map s.arena.get? = done.map some
  last : s.interestPosts = #[] ∨ s.interestPosts.toList.getLast? = some s.arena.cursor

theorem takes_interests (base : Account) :
    Takes (Quotes options.combineSurrogates) (Interested base) (do
      let span ← Scan.text options
      modify (·.pushInterest span)) where
  solid := solid_of_quotes
  forward h hreach := { h with room := h.room.forward hreach }
  step {done text bs rest s c} h hc _ hs := by
    obtain ⟨arena, hrun, hwritten⟩ := text_of_quotes h hc hs.room
    have hpush : Frame .interests { s with arena }
        (({ s with arena } : Account).pushInterest (arena.finish s.arena.cursor)) := by
      intro other hne w hold
      cases other <;> first | exact absurd rfl hne | exact hold
    have hframe := hs.frame.trans ((Frame.extend hwritten.keeps).trans hpush)
    refine ⟨({ s with arena } : Account).pushInterest (arena.finish s.arena.cursor), ?_,
      hwritten.room, hframe, ?_, .inr ?_⟩
    · rw [run_bind, hrun]
      rfl
    · show (Account.interestSpans _).map arena.get? = _
      rw [Account.interestSpans_pushInterest hs.last, List.map_append, List.map_append,
        List.map_singleton, List.map_singleton, hwritten.get?]
      exact congrArg (· ++ [some text]) (Arena.map_get?_of_extends hwritten.keeps hs.spans)
    · rw [Account.getLast?_pushInterest]
      exact congrArg some (Nat.add_sub_cancel' hwritten.le)

theorem undoes_interests : Undoes options .interests := by
  intro v bs rest account c h hc hends hroom
  have hclear : Frame .interests account account.clearInterests := by
    intro other hne w hold
    cases other <;> first | exact absurd rfl hne | exact hold
  have hstart : Interested account [] account.clearInterests c.skipSpace :=
    ⟨hroom, hclear, rfl, .inl rfl⟩
  obtain ⟨s, hrun, hs⟩ := list_of_listing (takes_interests options account) h hc hstart
  exact ⟨s, hrun, hs.spans, hs.frame, hs.room⟩

/-! ### Likes -/

/-- One more member of a like. -/
def PartialLike.take (found : PartialLike) : LikePart → PartialLike
  | .id value => { found with id := some value.1 }
  | .timestamp value => { found with timestamp := some value.1 }

theorem takes_parts : Takes (fun part : LikePart => Member part.key (Numeral part.number))
    (fun done found _ => found = done.foldl PartialLike.take {}) (keyed (likeMember options)) := by
  refine takes_keyed (fun part => ?_) (fun h _ => h) solid_of_numeral ?_
  · exact sealed_of_plain (by cases part <;> simp only [LikePart.key] <;> decide)
  · rintro done part bs rest found c h hc hends rfl
    have htimestamp : Scan.likeTimestampKey ≠ Scan.likeIdKey := by decide
    refine ⟨_, ?_, rfl⟩
    rw [List.foldl_append]
    cases part with
    | id value =>
        rw [likeMember, LikePart.key, if_pos rfl, run_bind, identifier_run h hc hends]
        rfl
    | timestamp value =>
        rw [likeMember, LikePart.key, if_neg htimestamp, if_pos rfl, run_bind,
          timestamp_run h hc hends]
        rfl

/-- The likes that were read so far. -/
structure Liked (base : Account) (done : List GivenLike) (s : Account) (c : Cursor) : Prop where
  room : Room s c
  frame : Frame .likes base s
  likes : s.likes.toList = done.map GivenLike.like

theorem like_run {given : GivenLike} (h : given.Renders bs) (hc : c.skipSpace.rest = bs ++ rest) :
    (like options).run account c =
      .ok () (account.addLike given.like) (c.skipSpace.advance bs.length) := by
  obtain ⟨parts, hparts, hlisting⟩ := h
  obtain ⟨found, hrun, rfl⟩ := list_of_listing (takes_parts options) hlisting (s := {}) hc rfl
  have hmembers : (members (likeMember options)).run {} c = _ := hrun
  have hfound : parts.foldl PartialLike.take {} =
      ⟨some given.toId.1, some given.timestamp.1⟩ := by
    rcases hparts with rfl | rfl <;> rfl
  rw [hfound] at hmembers
  simp only [like, run_bind, position, withState, hmembers]
  rfl

theorem takes_likes (base : Account) :
    Takes GivenLike.Renders (Liked base) (like options) where
  solid := by
    rintro given bs ⟨parts, -, ⟨⟩⟩ <;> exact ⟨_, _, rfl, by decide, by decide⟩
  forward h hreach := { h with room := h.room.forward hreach }
  step {done given bs rest s c} h hc _ hs := by
    have hadd : Frame .likes s (s.addLike given.like) := by
      intro other hne w hold
      cases other <;> first | exact absurd rfl hne | exact hold
    have hlikes : (s.addLike given.like).likes.toList = (done ++ [given]).map GivenLike.like := by
      simp [Account.addLike, hs.likes]
    have hroom := hs.room.forward (Cursor.reaches_advance_append hc)
    exact ⟨_, like_run options h hc, hroom, hs.frame.trans hadd, hlikes⟩

theorem undoes_likes : Undoes options .likes := by
  intro v bs rest account c h hc hends hroom
  have hclear : Frame .likes account account.clearLikes := by
    intro other hne w hold
    cases other <;> first | exact absurd rfl hne | exact hold
  have hstart : Liked account [] account.clearLikes c.skipSpace := ⟨hroom, hclear, rfl⟩
  obtain ⟨s, hrun, hs⟩ := list_of_listing (takes_likes options account) h hc hstart
  exact ⟨s, hrun, hs.likes, hs.frame, hs.room⟩

theorem undoes (field : Field) : Undoes options field := by
  cases field with
  | id => exact undoes_id options
  | sex => exact undoes_sex options
  | status => exact undoes_status options
  | text field => exact undoes_text options field
  | birth => exact undoes_birth options
  | joined => exact undoes_joined options
  | premium => exact undoes_premium options
  | interests => exact undoes_interests options
  | likes => exact undoes_likes options

/-! ### Records -/

theorem ofName?_key (field : Field) : Field.ofName? field.key = some field := by
  cases field with
  | text field => cases field <;> decide
  | id | sex | status | birth | joined | premium | interests | likes => decide

theorem sealed_key (field : Field) : Sealed field.key := by
  apply sealed_of_plain
  cases field with
  | text field => cases field <;> decide
  | id | sex | status | birth | joined | premium | interests | likes => decide

theorem solid_of_renders {cs : Bool} {g : Given} (h : g.1.Renders cs g.2 bs) : Solid bs := by
  obtain ⟨field, v⟩ := g
  cases field with
  | id | birth | joined => exact solid_of_numeral h
  | sex | status | text => exact solid_of_quotes h
  | premium | interests | likes => exact solid_of_listing h

theorem takes_members : Takes
    (fun g : Given => Member g.1.key (g.1.Renders options.combineSurrogates g.2))
    (fun given s c => Room s c ∧ ∀ field, Holds s field (last? given field))
    (keyed (member options)) := by
  refine takes_keyed (fun g => sealed_key g.1) (fun h hreach => ⟨h.1.forward hreach, h.2⟩)
    solid_of_renders ?_
  rintro given ⟨field, v⟩ bs rest s c h hc hends ⟨hroom, hholds⟩
  rw [← Cursor.skipSpace_skipSpace] at hc hroom
  obtain ⟨b, hrun, hb⟩ := undoes options field h hc hends hroom
  rw [Cursor.skipSpace_skipSpace] at hrun hb
  refine ⟨b, ?_, hb.room, fun other => ?_⟩
  · rw [member, ofName?_key]
    exact hrun
  · by_cases hother : field = other
    · subst hother
      rw [last?_concat_self]
      exact hb.holds
    · rw [last?_concat_of_ne given hother]
      exact hb.frame other (Ne.symm hother) _ (hholds other)

end Scan

theorem holds_emptied (account : Account) (field : Field) : Holds (emptied account) field none := by
  cases field <;> rfl

/-- **Decoding undoes rendering.** Whatever a record gives, in whatever order and how often, any
rendering of it is complete at its end, and the account then holds of each field the value that was
given last, or none. -/
theorem decode_rendering {options : Options} {account : Account} {given : List Given} {bs : Bytes}
    (h : Rendering options.combineSurrogates given bs) (hroom : bs.length ≤ account.arena.capacity) :
    (decode options account bs).result = .ok (.complete bs.length) ∧
      ∀ field, Holds (decode options account bs).account field (last? given field) := by
  obtain ⟨gap, object, hgap, rfl, hobject⟩ := h
  have hfront : (Cursor.start (gap ++ object)).rest = gap ++ (object ++ []) := by
    rw [List.append_nil]
    rfl
  have hskip := hgap.skipSpace_solid (solid_of_listing hobject) hfront
  have hc : (Cursor.start (gap ++ object)).skipSpace.rest = object ++ [] := by
    rw [hskip]
    exact Cursor.rest_advance hfront
  have hstart : Room (emptied account) (.start (gap ++ object)) :=
    ⟨Nat.le_refl 0, by rw [Cursor.start, Nat.zero_add]; exact hroom⟩
  obtain ⟨s, hrun, -, hholds⟩ := Scan.list_of_listing (Scan.takes_members options) hobject hc
    ⟨hstart.forward (Cursor.reaches_skipSpace _), holds_emptied account⟩
  have hrecord : (Scan.record options).run (emptied account) (.start (gap ++ object)) = _ := hrun
  have hpos : ((Cursor.start (gap ++ object)).skipSpace.advance object.length).pos =
      (gap ++ object).length := by
    rw [hskip, Cursor.advance_pos, Cursor.advance_pos, Cursor.start, Nat.zero_add, List.length_append]
  rw [decode_eq, hrecord]
  exact ⟨congrArg (fun n => Except.ok (Progress.complete n)) hpos, hholds⟩

/-- An identifier that is given twice, with a text between. -/
theorem decode_rendering_twice :
    let bs := Utf8.ofString "\x7b\"id\":+007, \"fname\":\"\\u0041b\",\"id\":8\x7d"
    let answer := decode {} (.new {}) bs
    answer.result = .ok (.complete bs.length) ∧ answer.account.id = 8 ∧
      answer.account.arena.get? (answer.account.texts .fname) = some (Utf8.ofString "Ab") ∧
      answer.account.sex = none := by
  intro bs answer
  have hunit : HexUnit 0x41 (Utf8.ofString "0041") := ⟨0, 0, 4, 1, by decide, rfl⟩
  have hplain : Spells true [0x62] [0x62] := .plain (by decide) (by decide) .nil
  have hspells : Spells true (Utf8.encode 0x41 ++ [0x62]) (Byte.backslash :: Byte.letterU ::
      (Utf8.ofString "0041" ++ [0x62])) := .unit hunit (fun _ h => absurd h (by decide)) hplain
  have hdigits {bs : Bytes} (hne : bs ≠ []) (h : bs.all Byte.isDigit) : Digits bs :=
    ⟨hne, List.all_eq_true.1 h⟩
  have hseven : Numeral (7 : Nat) (Utf8.ofString "+007") :=
    .plus (hdigits (show Utf8.ofString "007" ≠ [] by decide) (by decide))
  have height : Numeral (8 : Nat) (Utf8.ofString "8") :=
    .bare (hdigits (show Utf8.ofString "8" ≠ [] by decide) (by decide))
  let R : Given → Bytes → Prop := fun g => Member g.1.key (g.1.Renders true g.2)
  let seven : Given := ⟨.id, (⟨7, by decide⟩ : Identifier)⟩
  let name : Given := ⟨.text .fname, Utf8.ofString "Ab"⟩
  let eight : Given := ⟨.id, (⟨8, by decide⟩ : Identifier)⟩
  have hmember {key value : Bytes} {V : Bytes → Prop} (h : V value) :
      Member key V (Byte.quote :: (key ++ Byte.quote :: ([] ++ Byte.colon :: ([] ++ value)))) :=
    .mk .nil .nil h
  have hfirst : R seven (Utf8.ofString "\"id\":+007") := hmember hseven
  have hsecond : R name (Utf8.ofString "\"fname\":\"\\u0041b\"") := hmember ⟨_, hspells, rfl⟩
  have hthird : R eight (Utf8.ofString "\"id\":8") := hmember height
  have hspace : Gap [Byte.space] := List.all_eq_true.1 (by decide)
  have hlast : Items R [eight] ([] ++ (Utf8.ofString "\"id\":8" ++ [])) := .last .nil hthird .nil
  have hitems : Items R [seven, name, eight]
      ([] ++ (Utf8.ofString "\"id\":+007" ++ ([] ++ Byte.comma ::
        ([Byte.space] ++ (Utf8.ofString "\"fname\":\"\\u0041b\"" ++ ([] ++ Byte.comma ::
          ([] ++ (Utf8.ofString "\"id\":8" ++ [])))))))) :=
    .more .nil hfirst .nil (.more hspace hsecond .nil hlast)
  have hrendering : Rendering ({} : Options).combineSurrogates [seven, name, eight] bs :=
    ⟨[], bs, .nil, rfl, .full hitems⟩
  have hroom : bs.length ≤ (Account.new {}).arena.capacity := by decide
  obtain ⟨hresult, hholds⟩ := decode_rendering hrendering hroom
  exact ⟨hresult, hholds .id, hholds (.text .fname), hholds .sex⟩

end Intake.Record
