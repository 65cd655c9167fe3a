import Intake.Proofs.Record.Blame
import Intake.Proofs.Record.Grammar.Decode

/-!
# Where the decoder points

A fault of the decoder points at a token. There are two exceptions, where the place is taken before the
whitespace in front of the token is passed over: a number in the object of a premium time or of a like
that has less than 64 bits but does not fit its field, and a like, other than the first, that is not
complete. `Stray` says what has been read of a record at such a place.
-/

namespace Intake.Record

/-! ### Places in a record -/

/-- The fault lies in an item of a list. The whitespace in front of the first item is passed over before
the item is read. -/
inductive WithinList {α : Type} (bracket : Bracket) (Q : α → Bytes → Prop) (L : Bytes → Fault → Prop) :
    Bytes → Fault → Prop
  | first {before gap read : Bytes} {e : Fault} (hbefore : Gap before) (hgap : Gap gap)
      (hread : read ≠ []) (h : L read e) :
      WithinList bracket Q L (before ++ bracket.opening :: (gap ++ read)) e
  | later {before row read : Bytes} {items : List α} {e : Fault} (hbefore : Gap before)
      (hrow : Items Q items row) (h : L read e) :
      WithinList bracket Q L (before ++ bracket.opening :: (row ++ Byte.comma :: read)) e

/-- The fault lies in the value of a member. -/
inductive WithinMember (L : Bytes → Bytes → Fault → Prop) : Bytes → Fault → Prop
  | mk {before key after read : Bytes} {e : Fault} (hbefore : Gap before) (hkey : Sealed key)
      (hafter : Gap after) (h : L key read e) :
      WithinMember L (before ++ Byte.quote :: (key ++ Byte.quote :: (after ++ Byte.colon :: read))) e

section Stray

variable (options : Options)

/-- At the value of an end of a premium time. -/
def StrayPremium : Bytes → Fault → Prop :=
  WithinList .brace (Entry (PremiumText options))
    (WithinMember fun key read e => (∃ side : End, key = side.key) ∧ AtStart .numberOverflow read e)

/-- At a like that is not complete, or at the value of one of its own members. -/
inductive StrayLike (read : Bytes) (e : Fault) : Prop
  | incomplete (h : AtStart .incompleteLike read e)
  | number (h : WithinList .brace (Entry (LikeText options))
      (WithinMember fun key read e =>
        (key = Scan.likeIdKey ∨ key = Scan.likeTimestampKey) ∧ AtStart .numberOverflow read e) read e)

inductive StrayValue (key read : Bytes) (e : Fault) : Prop
  | premium (hkey : key = Field.premium.key) (h : StrayPremium options read e)
  | likes (hkey : key = Field.likes.key) (h : WithinList .square (WholeLike options) (StrayLike options) read e)

/-- What has been read of a record where a fault points at whitespace. -/
def Stray : Bytes → Fault → Prop :=
  WithinList .brace (Entry (ValueText options)) (WithinMember (StrayValue options))

end Stray

theorem WithinList.gap {α : Type} {bracket : Bracket} {Q : α → Bytes → Prop} {L : Bytes → Fault → Prop}
    {read : Bytes} {e : Fault} (h : WithinList bracket Q L read e) {gap : Bytes} (hgap : Gap gap) :
    WithinList bracket Q L (gap ++ read) e := by
  cases h with
  | first hbefore hinner hread h =>
      rw [← List.append_assoc]
      exact .first (hgap.append hbefore) hinner hread h
  | later hbefore hrow h =>
      rw [← List.append_assoc]
      exact .later (hgap.append hbefore) hrow h

variable {options : Options}

theorem WithinList.exists_read {α : Type} {bracket : Bracket} {Q : α → Bytes → Prop}
    {L : Bytes → Fault → Prop} {read : Bytes} {e : Fault} (h : WithinList bracket Q L read e) :
    ∃ rest, L rest e := by
  cases h with
  | first _ _ _ h => exact ⟨_, h⟩
  | later _ _ h => exact ⟨_, h⟩

theorem StrayPremium.kind {read : Bytes} {e : Fault} (h : StrayPremium options read e) :
    ∃ o, e = .numberOverflow o := by
  obtain ⟨_, ⟨_, _, _, -, h⟩⟩ := WithinList.exists_read h
  exact h.2

theorem StrayLike.kind {read : Bytes} {e : Fault} (h : StrayLike options read e) :
    ∃ o, e = .numberOverflow o ∨ e = .incompleteLike o := by
  cases h with
  | incomplete h => exact h.2.imp fun _ => .inr
  | number h =>
      obtain ⟨_, ⟨_, _, _, -, h⟩⟩ := h.exists_read
      exact h.2.imp fun _ => .inl

theorem Stray.kind {read : Bytes} {e : Fault} (h : Stray options read e) :
    ∃ o, e = .numberOverflow o ∨ e = .incompleteLike o := by
  obtain ⟨_, ⟨_, _, _, h⟩⟩ := WithinList.exists_read h
  cases h with
  | premium _ h => exact h.kind.imp fun _ => .inl
  | likes _ h =>
      obtain ⟨_, h⟩ := h.exists_read
      exact h.kind

theorem StrayValue.gap {key read gap : Bytes} {e : Fault} (h : StrayValue options key read e)
    (hgap : Gap gap) : StrayValue options key (gap ++ read) e := by
  cases h with
  | premium hkey h => exact .premium hkey (WithinList.gap h hgap)
  | likes hkey h => exact .likes hkey (h.gap hgap)

namespace Scan

variable {σ τ α β : Type} {C C' : Bytes → Prop} {L L' : Bytes → Fault → Prop}

/-- Faults of the scan are blamed if `C` holds of what stands in front. -/
def Blames (options : Options) (C : Bytes → Prop) (L : Bytes → Fault → Prop) (x : Scan σ α) : Prop :=
  ∀ ⦃front s s' c e⦄, C front → x.run s c = .stop (.fault e) s' → Blamed options L front c e

theorem run_bind_eq_stop {x : Scan σ α} {f : α → Scan σ β} {s s' : σ} {c : Cursor} {why : Stop}
    (h : (x >>= f).run s c = .stop why s') :
    x.run s c = .stop why s' ∨
      ∃ a s₁ d, x.run s c = .ok a s₁ d ∧ (f a).run s₁ d = .stop why s' := by
  rw [run_bind] at h
  split at h
  next a s₁ d hx => exact .inr ⟨a, s₁, d, hx, h⟩
  next hx =>
    cases h
    exact .inl hx

theorem Blames.mono {x : Scan σ α} (h : Blames options C L x) (hL : ∀ {read e}, L read e → L' read e) :
    Blames options C L' x := fun _ _ _ _ _ hfront hrun => (h hfront hrun).mono fun _ => hL

theorem blames_read {f : Cursor → Read α} {hf : Forward f} (h : BlamesRead options C L f) :
    Blames options C L (read f hf : Scan σ α) := by
  intro front s s' c e hfront hrun
  rw [run_read] at hrun
  split at hrun
  · cases hrun
  next hread =>
    cases hrun
    exact h hfront hread

theorem Blames.modify {x : Scan σ α} (h : Blames options C L x) (f : α → σ → σ) :
    Blames options C L (x >>= fun a => Scan.modify (f a)) := by
  intro front s s' c e hfront hrun
  obtain hx | ⟨a, s₁, d, -, hmodify⟩ := run_bind_eq_stop hrun
  · exact h hfront hx
  · cases hmodify

theorem Blames.skipSpace {M : Bytes → Fault → Prop} {x : Scan σ α} (h : Blames options C M x)
    (hC : ∀ {front}, C front → ∀ {gap}, Gap gap → C (front ++ gap))
    (hL : ∀ {gap read e}, Gap gap → read ≠ [] → M read e → L (gap ++ read) e) :
    Blames options C L (Scan.skipSpace >>= fun _ => x) := by
  intro front s s' c e hfront hrun
  obtain ⟨gap, hgap, hc⟩ := exists_gap c
  have hblamed := (h (hC hfront hgap) hrun).of_skipSpace c.skipSpace_skipSpace
  exact hblamed.behind hc c.reaches_skipSpace fun _ hread => hL hgap hread.1 hread.2

/-! ### Lists -/

section Lists

variable {R : β → Bytes → Prop} {Q : List β → σ → Prop} {item : Scan σ Unit} {bracket : Bracket}
  {s s' : σ} {c : Cursor} {e : Fault} {front : Bytes}

theorem blamed_of_runItems (hitem : Blames options C L item) (hgathers : Gathers R Q item)
    (hcomma : ∀ front, C (front ++ [Byte.comma]))
    (h : runItems bracket.closing item s c = .stop (.fault e) s') {done : List β} (hs : Q done s)
    (hfront : C front) :
    Blamed options (fun read e => L read e ∨ ∃ items row rest, Items R items row ∧
      read = row ++ Byte.comma :: rest ∧ L rest e) front c e := by
  fun_induction runItems bracket.closing item s c generalizing done front with
  | case1 s c why s₁ hrun =>
      cases h
      exact (hitem hfront hrun).mono fun _ => .inl
  | case2 | case4 => cases h
  | case3 s c _ s₁ d hrun tail hd _ ih =>
      obtain ⟨b, before, bs, hbefore, hc, hb, hs₁⟩ := hgathers hs hrun
      obtain ⟨after, hafter, hd'⟩ := exists_gap d
      have hread : c.rest = (before ++ (bs ++ after)) ++ [Byte.comma] ++ (d.skipSpace.advance 1).rest := by
        rw [hc, hd', hd, Cursor.rest_advance_one hd]
        simp only [List.append_assoc, List.singleton_append]
      have hreaches := (item.reaches hrun).trans
        (d.reaches_skipSpace.trans (Cursor.reaches_advance_one hd))
      have hblamed := ih h hs₁ (hcomma (front ++ (before ++ (bs ++ after))))
      rw [List.append_assoc] at hblamed
      refine hblamed.behind hread hreaches fun read hL => .inr ?_
      obtain hL | ⟨items, row, rest, hrow, rfl, hL⟩ := hL
      · exact ⟨[b], _, read, .last hbefore hb hafter, by rw [List.append_assoc]; rfl, hL⟩
      · refine ⟨b :: items, _, rest, .more hbefore hb hafter hrow, ?_, hL⟩
        simp only [List.append_assoc, List.cons_append, List.nil_append]
  | case5 s c _ s₁ d hrun b tail hd _ _ =>
      cases h
      obtain ⟨_, before, bs, -, hc, -, -⟩ := hgathers hs hrun
      rw [← List.append_assoc] at hc
      have hblamed : Blamed options Exact (front ++ (before ++ bs)) d (.unexpectedByte b d.skipSpace.pos) := by
        refine .past_gap fun _ _ => .here (fun o ho => (Option.some.inj ho).symm) ?_
        rw [hd]
        exact .unexpectedByte (isSpace_of_skipSpace hd)
      exact hblamed.behind hc (item.reaches hrun) fun _ => False.elim

theorem blamed_of_list (bracket : Bracket) (hitem : Blames options C L item) (hgathers : Gathers R Q item)
    (hcomma : ∀ front, C (front ++ [Byte.comma]))
    (hopen : ∀ front gap, Gap gap → C (front ++ bracket.opening :: gap))
    (h : (expect bracket.opening >>= fun _ => list bracket.closing item).run s c = .stop (.fault e) s')
    (hs : Q [] s) : Blamed options (WithinList bracket R L) front c e := by
  obtain hexpect | ⟨_, s₁, body, hopened, hlist⟩ := run_bind_eq_stop h
  · exact (blames_read (blamesRead_expect _) trivial hexpect).exact
  obtain ⟨hexpect, rfl⟩ := run_read_eq_ok hopened
  obtain ⟨before, hbefore, hc⟩ := exists_gap c
  obtain ⟨gap, hgap, hbody⟩ := exists_gap body
  rw [rest_of_expect hexpect, hbody] at hc
  replace hlist : runList bracket.closing item s₁ body = .stop (.fault e) s' := hlist
  unfold runList at hlist
  split at hlist
  · cases hlist
  split at hlist
  · cases hlist
  have hread : c.rest = (before ++ bracket.opening :: gap) ++ body.skipSpace.rest := by
    rw [hc, List.append_assoc, List.cons_append]
  have hfront : C (front ++ (before ++ bracket.opening :: gap)) := by
    rw [← List.append_assoc]
    exact hopen _ gap hgap
  have hblamed := (blamed_of_runItems hitem hgathers hcomma hlist hs hfront).of_skipSpace
    body.skipSpace_skipSpace
  refine hblamed.behind hread ((reaches_of_expect hexpect).1.trans body.reaches_skipSpace) ?_
  intro read hL
  rw [List.append_assoc, List.cons_append]
  obtain ⟨hne, hL | ⟨items, row, rest, hrow, rfl, hL⟩⟩ := hL
  · exact .first hbefore hgap hne hL
  · rw [← List.append_assoc gap]
    exact .later hbefore (gap_items hgap hrow) hL

theorem blames_keyed {L : Bytes → Bytes → Fault → Prop} {member : Bytes → Scan σ Unit}
    (h : ∀ key, Blames options (Behind Byte.colon) (L key) (member key)) :
    Blames options (fun _ => True) (WithinMember L) (keyed member) := by
  intro front s s' c e _ hrun
  obtain hkey | ⟨key, s₁, afterKey, hkey, hrest⟩ := run_bind_eq_stop hrun
  · exact (blames_read blamesRead_rawString trivial hkey).exact
  obtain ⟨hraw, rfl⟩ := run_read_eq_ok hkey
  obtain ⟨hquotes, hsealed⟩ := rest_of_rawString hraw
  obtain ⟨before, hbefore, hc⟩ := exists_gap c
  have hreadKey : c.rest = (before ++ Byte.quote :: (key ++ [Byte.quote])) ++ afterKey.rest := by
    rw [hc, hquotes]
    simp
  obtain hcolon | ⟨_, s₂, afterColon, hcolon, hvalue⟩ := run_bind_eq_stop hrest
  · have hblamed (front : Bytes) : Blamed options Exact front afterKey e :=
      blames_read (blamesRead_expect _) trivial hcolon
    exact (hblamed _).behind hreadKey (reaches_of_rawString hraw).1 fun _ => False.elim
  obtain ⟨hexpect, rfl⟩ := run_read_eq_ok hcolon
  obtain ⟨after, hafter, hc'⟩ := exists_gap afterKey
  have hread : c.rest = (before ++ Byte.quote :: (key ++ Byte.quote :: (after ++ [Byte.colon]))) ++
      afterColon.rest := by
    rw [hc, hquotes, hc', rest_of_expect hexpect]
    simp
  have hfront : Behind Byte.colon
      (front ++ (before ++ Byte.quote :: (key ++ Byte.quote :: (after ++ [Byte.colon])))) := by
    have hsplit : before ++ Byte.quote :: (key ++ Byte.quote :: (after ++ [Byte.colon])) =
        (before ++ Byte.quote :: (key ++ Byte.quote :: after)) ++ [Byte.colon] := by simp
    rw [hsplit]
    exact (behind_concat _ _).append_left front
  refine (h key hfront hvalue).behind hread
    ((reaches_of_rawString hraw).1.trans (reaches_of_expect hexpect).1) fun read hL => ?_
  have hmember := WithinMember.mk (L := L) hbefore hsealed hafter hL
  simp only [List.append_assoc, List.cons_append, List.nil_append] at hmember ⊢
  exact hmember

end Lists

/-! ### Values -/

theorem blames_timestamp :
    Blames options (Behind Byte.colon) (AtStart .numberOverflow) (timestamp : Scan σ Int) :=
  blames_read blamesRead_timestamp

theorem blames_identifier :
    Blames options (Behind Byte.colon) (AtStart .numberOverflow) (identifier : Scan σ Nat) :=
  blames_read blamesRead_identifier

theorem blames_skipValue : Blames options C L (skipValue options : Scan σ Unit) :=
  fun _ _ _ _ _ _ hrun => (blames_read blamesRead_skipValue trivial hrun).exact

theorem blames_text : Blames options C L (text options) := by
  intro front s s' c e _ hrun
  rw [text_run] at hrun
  split at hrun
  next hquoted =>
    cases hrun
    exact (blamesRead_quoted trivial hquoted).exact
  · cases hrun

theorem blames_scratch : Blames options C L (scratch options) := by
  intro front s s' c e _ hrun
  rw [scratch_run] at hrun
  split at hrun
  next hquoted =>
    cases hrun
    exact (blamesRead_quoted trivial hquoted).exact
  · cases hrun

theorem blames_sex : Blames options (Behind Byte.colon) (AtStart .invalidSex) (sex options) := by
  intro front s s' c e hfront hrun
  change (scratch options >>= fun seen => _).run s c = _ at hrun
  obtain hscratch | ⟨seen, s₁, d, hscratch, hsex⟩ := run_bind_eq_stop hrun
  · exact blames_scratch hfront hscratch
  split at hsex
  · cases hsex
  · cases hsex
    obtain ⟨text, gap, bs, hgap, hc, hquotes, -⟩ := quotes_of_scratch hscratch
    exact .at_start (fun _ => rfl) hgap hc (.invalidSex (hfront.append hgap) hquotes)

theorem blames_status :
    Blames options (Behind Byte.colon) (AtStart .invalidStatus) (status options) := by
  intro front s s' c e hfront hrun
  change (scratch options >>= fun seen => _).run s c = _ at hrun
  obtain hscratch | ⟨seen, s₁, d, hscratch, hstatus⟩ := run_bind_eq_stop hrun
  · exact blames_scratch hfront hscratch
  split at hstatus
  · cases hstatus
  · cases hstatus
    obtain ⟨text, gap, bs, hgap, hc, hquotes, -⟩ := quotes_of_scratch hscratch
    exact .at_start (fun _ => rfl) hgap hc (.invalidStatus (hfront.append hgap) hquotes)

theorem blames_premiumMember (key : Bytes) :
    Blames options (Behind Byte.colon)
      (fun read e => (∃ side : End, key = side.key) ∧ AtStart .numberOverflow read e)
      (premiumMember options key) := by
  unfold premiumMember
  split
  next hstart => exact (blames_timestamp.modify _).mono fun h => ⟨⟨.start, hstart⟩, h⟩
  next =>
    split
    next hfinish => exact (blames_timestamp.modify _).mono fun h => ⟨⟨.finish, hfinish⟩, h⟩
    next => exact blames_skipValue

theorem blames_premium : Blames options C (StrayPremium options) (premium options) := by
  intro front s s' c e _ hrun
  obtain hmembers | ⟨_, s₁, d, -, hmodify⟩ := run_bind_eq_stop hrun
  · rw [run_withState] at hmembers
    split at hmembers
    · cases hmembers
    next hlist =>
      cases hmembers
      exact blamed_of_list .brace (blames_keyed blames_premiumMember)
        (gathers_members (accepts_premiumMember options)) (fun _ => trivial) (fun _ _ _ => trivial)
        hlist trivial
  · cases hmodify

theorem blames_likeMember (key : Bytes) :
    Blames options (Behind Byte.colon)
      (fun read e => (key = likeIdKey ∨ key = likeTimestampKey) ∧ AtStart .numberOverflow read e)
      (likeMember options key) := by
  unfold likeMember
  split
  next hid => exact (blames_identifier.modify _).mono fun h => ⟨.inl hid, h⟩
  next =>
    split
    next htimestamp => exact (blames_timestamp.modify _).mono fun h => ⟨.inr htimestamp, h⟩
    next => exact blames_skipValue

theorem blames_like : Blames options (fun front => Behind Byte.openSquare front ∨ Behind Byte.comma front)
    (StrayLike options) (like options) := by
  intro front s s' c e hfront hrun
  change (withState {} (members (likeMember options)) >>= fun found => _).run s c = _ at hrun
  obtain hmembers | ⟨⟨_, found⟩, s₁, d, hmembers, hlike⟩ := run_bind_eq_stop hrun
  · rw [run_withState] at hmembers
    split at hmembers
    · cases hmembers
    next hlist =>
      cases hmembers
      exact (blamed_of_list .brace (blames_keyed blames_likeMember) (gathers_likeMember options)
        (fun _ => trivial) (fun _ _ _ => trivial) hlist found_nil).mono fun _ => .number
  · rw [run_withState] at hmembers
    split at hmembers
    next hlist =>
      cases hmembers
      obtain ⟨keys, gap, bs, hgap, hc, hobject, -⟩ :=
        listing_of_run .brace (gathers_likeMember options) hlist found_nil
      dsimp only at hlike
      split at hlike
      · cases hlike
      · cases hlike
        have hmarks : Marks options (front ++ gap) (.incompleteLike c.pos) (bs ++ d.rest) :=
          .incompleteLike (hfront.imp (·.append hgap) (·.append hgap)) hobject
        exact (Blamed.at_start (fun _ => rfl) hgap hc hmarks).mono fun _ => .incomplete
    · cases hmembers

theorem blames_likes :
    Blames options C (WithinList .square (WholeLike options) (StrayLike options)) (likes options) := by
  intro front s s' c e _ hrun
  change (elements (like options)).run s.clearLikes c = _ at hrun
  exact blamed_of_list .square blames_like (gathers_like options)
    (fun front => .inr (behind_concat _ front)) (fun front gap hgap => .inl ⟨front, gap, hgap, rfl⟩)
    hrun trivial

theorem blames_interests : Blames options C L (interests options) := by
  intro front s s' c e _ hrun
  change (elements (text options >>= fun span => modify (·.pushInterest span))).run s.clearInterests c = _
    at hrun
  have hitem : Blames options (fun _ => True) Exact
      (text options >>= fun span => modify (·.pushInterest span)) := blames_text.modify _
  refine (blamed_of_list .square hitem (gathers_interest options) (fun _ => trivial)
    (fun _ _ _ => trivial) hrun trivial).mono fun read h => ?_
  cases h with
  | first _ _ _ h => exact h.elim
  | later _ _ h => exact h.elim

/-- A fault in the value of a field points at whitespace only where that is the first that is read, or
further on in a premium time or in the likes. -/
theorem blames_value (field : Field) :
    Blames options (Behind Byte.colon) (fun read e => read = [] ∨ StrayValue options field.key read e)
      (value options field) := by
  cases field with
  | id => exact (blames_identifier.modify _).mono fun h => .inl h.1
  | birth => exact (blames_timestamp.modify _).mono fun h => .inl h.1
  | joined => exact (blames_timestamp.modify _).mono fun h => .inl h.1
  | sex => exact blames_sex.mono fun h => .inl h.1
  | status => exact blames_status.mono fun h => .inl h.1
  | text field => exact blames_text.modify _
  | premium => exact blames_premium.mono fun h => .inr (.premium rfl h)
  | interests => exact blames_interests
  | likes => exact blames_likes.mono fun h => .inr (.likes rfl h)

theorem blames_member (key : Bytes) :
    Blames options (Behind Byte.colon) (StrayValue options key) (member options key) := by
  refine Blames.skipSpace (M := fun read e => read = [] ∨ StrayValue options key read e) ?_ Behind.append
    fun hgap hne h => (h.resolve_left hne).gap hgap
  split
  next field hname =>
    rw [key_of_ofName? hname]
    exact blames_value field
  next => exact blames_skipValue

theorem blames_record : Blames options C (Stray options) (record options) := fun _ _ _ _ _ _ hrun =>
  blamed_of_list .brace (blames_keyed blames_member) (gathers_members (accepts_member options))
    (fun _ => trivial) (fun _ _ _ => trivial) hrun trivial

end Scan

/-! ### The decoder -/

section Decode

variable {account : Account} {input : Bytes} {e : Fault} {o : Nat}

theorem blamed_of_decode (h : (decode options account input).result = .error e) :
    Blamed options (Stray options) [] (.start input) e := by
  rw [decode_eq] at h
  unfold Reply.decoded at h
  split at h
  · cases h
  · cases h
  next hrun =>
    cases h
    exact Scan.blames_record (C := fun _ => True) trivial hrun

/-- A fault is blamed on a byte of the input. -/
theorem lt_length_of_decode (h : (decode options account input).result = .error e)
    (ho : e.offset? = some o) : o < input.length := by
  obtain ⟨read, gap, token, hinput, hpos, -, hmarks, -⟩ := blamed_of_decode h o ho
  obtain ⟨b, rest, rfl, -⟩ := hmarks.isSpace_eq_false
  have hlength := congrArg List.length hinput
  simp only [Cursor.start, List.length_append, List.length_cons] at hlength hpos
  omega

/-- **Faults point at what is wrong.** A fault that has an offset has that of a byte of the input. From
there on, behind whitespace at most, stands what the fault is about: the byte itself, the backslash of
the escape, the bracket, the number, the string or the like, each with its first byte. It is exactly
there unless the number is in the object of a premium time or of a like, or the like comes after
another: then the fault points at the whitespace in front of it, if there is any. -/
theorem marks_of_decode (h : (decode options account input).result = .error e)
    (ho : e.offset? = some o) :
    let c := (Cursor.within input o).skipSpace
    o < input.length ∧ Marks options (input.take c.pos) e c.rest ∧
      (c.pos ≠ o → (e = .numberOverflow o ∨ e = .incompleteLike o) ∧ Stray options (input.take o) e) := by
  intro c
  obtain ⟨read, gap, token, hinput, hpos, hgap, hmarks, hstray⟩ := blamed_of_decode h o ho
  obtain ⟨b, rest, rfl, hb⟩ := hmarks.isSpace_eq_false
  replace hinput : input = read ++ (gap ++ b :: rest) := hinput
  replace hpos : o = read.length := hpos.trans (Nat.zero_add _)
  have hrest : (Cursor.within input o).rest = gap ++ b :: rest := by
    show input.drop o = _
    rw [hinput, hpos, List.drop_left]
  have hskip : c = (Cursor.within input o).advance gap.length := hgap.skipSpace hb hrest
  have hcrest : c.rest = b :: rest := by
    rw [hskip]
    exact Cursor.rest_advance hrest
  have hcpos : c.pos = (read ++ gap).length := by
    rw [hskip, List.length_append, ← hpos]
    rfl
  have htake : input.take c.pos = read ++ gap := by
    rw [hcpos, hinput, ← List.append_assoc, List.take_left]
  refine ⟨lt_length_of_decode h ho, ?_, fun hne => ?_⟩
  · rw [htake, hcrest]
    exact hmarks
  · have hread : input.take o = read := by rw [hinput, hpos, List.take_left]
    have hgap : gap ≠ [] := by
      rintro rfl
      rw [List.append_nil, ← hpos] at hcpos
      exact hne hcpos
    rw [hread]
    refine ⟨?_, hstray hgap⟩
    obtain ⟨_, rfl | rfl⟩ := (hstray hgap).kind
    · exact .inl (Option.some.inj ho ▸ rfl)
    · exact .inr (Option.some.inj ho ▸ rfl)

/-- The identifier of a record is looked for where the whitespace ends. -/
theorem marks_of_decode_identifier :
    let input := Utf8.ofString "\x7b\"id\": 4294967296\x7d"
    (decode {} (.new {}) input).result = .error (.numberOverflow 7) ∧
      Marks {} (input.take 7) (.numberOverflow 7) (Utf8.ofString "4294967296\x7d") := by
  intro input
  have hfault : (decode {} (.new {}) input).result = .error (.numberOverflow 7) := by decide +kernel
  have hskip : (Cursor.within input 7).skipSpace = ⟨7, Utf8.ofString "4294967296\x7d"⟩ := by decide
  obtain ⟨-, hmarks, -⟩ := marks_of_decode hfault rfl
  rw [hskip] at hmarks
  exact ⟨hfault, hmarks⟩

/-- The start of a premium time is not. -/
theorem space_of_decode_premium :
    let input := Utf8.ofString "\x7b\"premium\":\x7b\"start\": 2147483648\x7d\x7d"
    (decode {} (.new {}) input).result = .error (.numberOverflow 20) ∧
      input[20]? = some Byte.space := by
  exact ⟨by decide +kernel, by decide⟩

end Decode

end Intake.Record
