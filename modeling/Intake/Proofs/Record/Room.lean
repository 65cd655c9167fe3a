import Intake.Proofs.Record.Grammar.Quoted
import Intake.Proofs.Record.Rendering.Decode

/-!
# Room for a record

No lexeme of a string is longer than the bytes it is written with, so of all that is read at least as
much is read as is written. An arena that the whole input would fit has room for every text then, also
for one that turns out to be cut short, and wherever a value ends the arena is not ahead of the input.
-/

namespace Intake.Record

namespace Quoted

variable {cs : Bool} {bs text : Bytes} {width : Nat} {c after : Cursor}

/-! ### Lexemes and bodies -/

theorem four_le_of_codeUnit {digits : Bytes} {code : Nat} (h : codeUnit digits = .code code) :
    4 ≤ digits.length := by
  have hfour := (hexUnit_of_codeUnit h).2
  rw [List.length_take] at hfour
  omega

theorem length_le_of_unicodeLexeme {digits : Bytes} (h : unicodeLexeme cs digits = .piece text width) :
    text.length ≤ width ∧ width ≤ digits.length + 2 := by
  unfold unicodeLexeme at h
  split at h
  · cases h
  · cases h
  next value hcode =>
  have hfour := four_le_of_codeUnit hcode
  have hvalue := Utf8.length_encode_le value
  split at h
  · split at h
    next low hlow =>
      obtain ⟨rfl, rfl⟩ := Lexeme.piece.inj h
      obtain ⟨lowDigits, hdrop, hlowCode, -⟩ := escape_of_lowHalf hlow
      have hlowFour := four_le_of_codeUnit hlowCode
      have hlength := congrArg List.length hdrop
      simp only [List.length_drop, List.length_cons] at hlength
      exact ⟨Nat.le_trans (Utf8.length_encode_le _) (by decide), by omega⟩
    · cases h
    · cases h
      omega
  · cases h
    omega

/-- What a lexeme stands for is no longer than the lexeme, which is there as a whole. -/
theorem length_le_of_lexeme (h : lexeme cs bs = .piece text width) :
    text.length ≤ width ∧ width ≤ bs.length := by
  unfold lexeme at h
  split at h
  · cases h
  next b rest =>
  split at h
  · cases h
  split at h
  · unfold escapeLexeme at h
    split at h
    · cases h
    split at h
    · have hle := length_le_of_unicodeLexeme h
      simp only [List.length_cons]
      omega
    · cases h
      simp only [List.length_cons, List.length_nil]
      omega
  · cases h
    exact ⟨Nat.le_refl _, (List.takeWhile_prefix _).length_le⟩

/-- A body stands for no more bytes than are there, also if it is not closed. -/
theorem length_flatten_le (cs : Bool) (c : Cursor) :
    (read cs c).pieces.flatten.length ≤ c.rest.length := by
  fun_induction read cs c with
  | case1 | case3 | case4 => exact Nat.zero_le _
  | case2 c text width hpiece _ body ih =>
      obtain ⟨htext, hwidth⟩ := length_le_of_lexeme hpiece
      rw [Cursor.advance_rest, List.length_drop] at ih
      show (text ++ (read cs (c.advance width)).pieces.flatten).length ≤ c.rest.length
      rw [List.length_append]
      omega

/-- A body that is closed stands for no more bytes than were read. -/
theorem pos_add_length_flatten_le (h : (read cs c).ending = .closed after) :
    c.pos + (read cs c).pieces.flatten.length ≤ after.pos := by
  fun_induction read cs c with
  | case1 c =>
      cases h
      exact Nat.le_add_right _ _
  | case2 c text width hpiece _ body ih =>
      have htext := (length_le_of_lexeme hpiece).1
      have hrest := ih h
      rw [Cursor.advance_pos] at hrest
      show c.pos + (text ++ (read cs (c.advance width)).pieces.flatten).length ≤ after.pos
      rw [List.length_append]
      omega
  | case3 => cases h
  | case4 => cases h

end Quoted

/-! ### Readers that write nothing -/

/-- The reader has no use for an arena. -/
def WritesNothing {α : Type} (f : Cursor → Read α) : Prop :=
  ∀ ⦃c o⦄, f c ≠ .error (.fault (.capacityExceeded o))

theorem writesNothing_expect (b : UInt8) : WritesNothing (expect b) := by
  intro c o h
  unfold expect at h
  split at h
  · cases h
  · split at h <;> cases h

theorem writesNothing_rawString : WritesNothing rawString := by
  intro c o h
  unfold rawString at h
  split at h
  next hexpect =>
    cases h
    exact writesNothing_expect _ hexpect
  · split at h <;> cases h

theorem writesNothing_integer : WritesNothing integer := by
  intro c o h
  simp only [integer] at h
  split at h
  · cases h
  split at h
  · cases h
  split at h <;> cases h

theorem writesNothing_integerIn (low high : Int) : WritesNothing (integerIn low high) := by
  intro c o h
  unfold integerIn at h
  split at h
  next hinteger =>
    cases h
    exact writesNothing_integer hinteger
  · split at h <;> cases h

theorem writesNothing_identifier : WritesNothing identifier := by
  intro c o h
  unfold identifier at h
  split at h
  next hinteger =>
    cases h
    exact writesNothing_integerIn _ _ hinteger
  · cases h

theorem writesNothing_word : WritesNothing word := by
  intro c o h
  simp only [word] at h
  split at h
  · cases h
  · split at h <;> cases h

theorem writesNothing_skipToken (limit : Nat) (nest : Nest) : WritesNothing (skipToken limit nest) := by
  intro c o h
  unfold skipToken at h
  split at h
  · cases h
  split at h
  · split at h
    next hstring =>
      cases h
      exact writesNothing_rawString hstring
    · cases h
  split at h
  · split at h <;> cases h
  · split at h <;> cases h
  · split at h
    · split at h <;> cases h
    · split at h
      next hword =>
        cases h
        exact writesNothing_word hword
      · cases h

theorem writesNothing_skipValue (maxNesting : Nat) : WritesNothing (skipValue maxNesting) := by
  intro c o h
  unfold skipValue at h
  generalize ({} : Nest) = nest at h
  fun_induction skipWithin (nestingLimit maxNesting) nest c with
  | case1 nest c why htoken =>
      cases h
      exact writesNothing_skipToken _ _ htoken
  | case2 => cases h
  | case3 nest c nest' d htoken _ _ ih => exact ih h

/-! ### Strings -/

variable {cs : Bool} {account : Account} {c d : Cursor} {span : Span} {written : Arena} {o : Overflow}

/-- What is read of a string fits, whether its end is there or not. -/
theorem extendAll_of_room (cs : Bool) (hroom : Room account c) :
    ∃ arena, account.arena.extendAll (Quoted.read cs c).pieces = .ok arena ∧
      arena.cursor = account.arena.cursor + (Quoted.read cs c).pieces.flatten.length ∧
      arena.capacity = account.arena.capacity := by
  obtain ⟨hbehind, hfits⟩ := hroom
  have hlength := Quoted.length_flatten_le cs c
  have hspace : account.arena.cursor + (Quoted.read cs c).pieces.flatten.length ≤
      account.arena.capacity := by omega
  obtain ⟨arena, hext, hcontents, hcapacity⟩ := Arena.extendAll_of_le hspace
  refine ⟨arena, hext, ?_, hcapacity⟩
  rw [← Arena.length_contents, hcontents, List.length_append, Arena.length_contents]

theorem room_of_quoted (hroom : Room account c)
    (h : quoted cs account.arena c = .ok ((span, written), d)) :
    Room { account with arena := written } d := by
  have hreach := forward_quoted _ _ h
  have hend := (hroom.forward hreach).2
  unfold quoted at h
  split at h
  · cases h
  next body hexpect =>
  have hbody := hroom.forward (reaches_of_expect hexpect).1
  obtain ⟨arena, hext, hcursor, hcapacity⟩ := extendAll_of_room cs hbody
  split at h
  · cases h
  next hdecode =>
    cases h
    simp only [Quoted.decode, hext] at hdecode
    split at hdecode
    next hclosed =>
      cases hdecode
      have hle := Quoted.pos_add_length_flatten_le hclosed
      refine ⟨?_, hcapacity ▸ hend⟩
      show written.cursor ≤ d.pos
      have hbehind := hbody.1
      omega
    · cases hdecode
    · cases hdecode

theorem quoted_of_room_ne (hroom : Room account c) :
    quoted cs account.arena c ≠ .error (.fault (.capacityExceeded o)) := by
  intro h
  unfold quoted at h
  split at h
  next hexpect =>
    cases h
    exact writesNothing_expect _ hexpect
  next body hexpect =>
  obtain ⟨arena, hext, -⟩ := extendAll_of_room cs (hroom.forward (reaches_of_expect hexpect).1)
  split at h
  next hdecode =>
    cases h
    simp only [Quoted.decode, hext] at hdecode
    split at hdecode <;> cases hdecode
  · cases h

namespace Scan

variable {α β σ τ : Type}

/-! ### Scans that stay within the arena -/

/-- While `I` holds, the scan does not break it and never runs out of room. -/
structure Contained (I : σ → Cursor → Prop) (x : Scan σ α) : Prop where
  keeps : ∀ {s c a s' d}, I s c → x.run s c = .ok a s' d → I s' d
  fits : ∀ {s c s' o}, I s c → x.run s c ≠ .stop (.fault (.capacityExceeded o)) s'

variable {I : σ → Cursor → Prop}

theorem contained_bind {x : Scan σ α} {f : α → Scan σ β} (hx : Contained I x)
    (hf : ∀ a, Contained I (f a)) : Contained I (x >>= f) where
  keeps hI h := by
    rw [run_bind] at h
    split at h
    next hrun => exact (hf _).keeps (hx.keeps hI hrun) h
    · cases h
  fits hI h := by
    rw [run_bind] at h
    split at h
    next hrun => exact (hf _).fits (hx.keeps hI hrun) h
    next hrun =>
      cases h
      exact hx.fits hI hrun

theorem contained_modify {f : σ → σ} (hf : ∀ s c, I s c → I (f s) c) : Contained I (modify f) where
  keeps hI h := by
    cases h
    exact hf _ _ hI
  fits _ h := by cases h

theorem contained_position : Contained I (position : Scan σ Nat) where
  keeps hI h := by
    cases h
    exact hI
  fits _ h := by cases h

theorem contained_fail {fault : Fault} (h : ∀ o, fault ≠ .capacityExceeded o) :
    Contained I (fail fault : Scan σ α) where
  keeps _ h := by cases h
  fits _ hrun := by
    cases hrun
    exact h _ rfl

theorem contained_withState {init : τ} {x : Scan τ α} (hx : ∀ s, Contained (fun _ => I s) x) :
    Contained I (withState init x : Scan σ (α × τ)) where
  keeps hI h := by
    rw [run_withState] at h
    split at h
    next hrun =>
      cases h
      exact (hx _).keeps hI hrun
    · cases h
  fits hI h := by
    rw [run_withState] at h
    split at h
    · cases h
    next hrun =>
      cases h
      exact (hx _).fits hI hrun

/-- What holds of a place holds further on as well, as long as the state is the same. -/
def Onward (I : σ → Cursor → Prop) : Prop := ∀ ⦃s c d⦄, I s c → c.Reaches d → I s d

theorem onward_room : Onward Room := fun _ _ _ => Room.forward

/-- The state is that of a part of the value, and the room is in the account around it. -/
theorem onward_part (account : Account) : Onward fun _ : τ => Room account :=
  fun _ _ _ => Room.forward

section Forward

variable (hforward : Onward I)
include hforward

theorem contained_skipSpace : Contained I (skipSpace : Scan σ Unit) where
  keeps hI h := by
    cases h
    exact hforward hI (Cursor.reaches_skipSpace _)
  fits _ h := by cases h

theorem contained_read {f : Cursor → Read α} {hf : Forward f} (hnothing : WritesNothing f) :
    Contained I (read f hf : Scan σ α) where
  keeps hI h := by
    rw [run_read] at h
    split at h
    next hread =>
      cases h
      exact hforward hI (hf hread)
    · cases h
  fits _ h := by
    rw [run_read] at h
    split at h
    · cases h
    next hread =>
      cases h
      exact hnothing hread

theorem contained_list {close : UInt8} {item : Scan σ Unit} (hitem : Contained I item) :
    Contained I (list close item) := by
  have hitems : ∀ s c, I s c → (∀ {u s' d}, runItems close item s c = .ok u s' d → I s' d) ∧
      ∀ {s' o}, runItems close item s c ≠ .stop (.fault (.capacityExceeded o)) s' := by
    intro s c
    fun_induction runItems close item s c with
    | case1 s c why s' hrun =>
        intro hI
        refine ⟨fun h => (by cases h), fun h => ?_⟩
        cases h
        exact hitem.fits hI hrun
    | case2 => exact fun _ => ⟨fun h => (by cases h), fun h => by cases h⟩
    | case3 s c _ s₁ d hrun _ hd _ ih =>
        intro hI
        have hcomma := d.reaches_skipSpace.trans (Cursor.reaches_advance_one hd)
        exact ih (hforward (hitem.keeps hI hrun) hcomma)
    | case4 s c _ s₁ d hrun _ hd =>
        intro hI
        have hclose := d.reaches_skipSpace.trans (Cursor.reaches_advance_one hd)
        refine ⟨fun h => ?_, fun h => by cases h⟩
        cases h
        exact hforward (hitem.keeps hI hrun) hclose
    | case5 => exact fun _ => ⟨fun h => (by cases h), fun h => by cases h⟩
  have hlist : ∀ s c, I s c → (∀ {u s' d}, runList close item s c = .ok u s' d → I s' d) ∧
      ∀ {s' o}, runList close item s c ≠ .stop (.fault (.capacityExceeded o)) s' := by
    intro s c hI
    unfold runList
    split
    · exact ⟨fun h => (by cases h), fun h => by cases h⟩
    next hc =>
    split
    · refine ⟨fun h => ?_, fun h => by cases h⟩
      cases h
      exact hforward hI (c.reaches_skipSpace.trans (Cursor.reaches_advance_one hc))
    · exact hitems s _ (hforward hI c.reaches_skipSpace)
  exact ⟨fun hI => (hlist _ _ hI).1, fun hI => (hlist _ _ hI).2⟩

theorem contained_elements {element : Scan σ Unit} (h : Contained I element) :
    Contained I (elements element) :=
  contained_bind (contained_read hforward (writesNothing_expect _)) fun _ =>
    contained_list hforward h

theorem contained_keyed {member : Bytes → Scan σ Unit} (h : ∀ key, Contained I (member key)) :
    Contained I (keyed member) :=
  contained_bind (contained_read hforward writesNothing_rawString) fun key =>
    contained_bind (contained_read hforward (writesNothing_expect _)) fun _ => h key

theorem contained_members {member : Bytes → Scan σ Unit} (h : ∀ key, Contained I (member key)) :
    Contained I (members member) :=
  contained_bind (contained_read hforward (writesNothing_expect _)) fun _ =>
    contained_list hforward (contained_keyed hforward h)

end Forward

/-! ### The values of a record -/

section Values

variable (options : Options)

theorem contained_text : Contained Room (text options) where
  keeps hroom h := by
    rw [text_run] at h
    split at h
    · cases h
    next hquoted =>
      cases h
      exact room_of_quoted hroom hquoted
  fits hroom h := by
    rw [text_run] at h
    split at h
    next hquoted =>
      cases h
      exact quoted_of_room_ne hroom hquoted
    · cases h

theorem contained_scratch : Contained Room (scratch options) where
  keeps hroom h := by
    rw [scratch_run] at h
    split at h
    · cases h
    next hquoted =>
      cases h
      exact hroom.forward (forward_quoted _ _ hquoted)
  fits hroom h := by
    rw [scratch_run] at h
    split at h
    next hquoted =>
      cases h
      exact quoted_of_room_ne hroom hquoted
    · cases h

theorem contained_modify_room {f : Account → Account} (hf : ∀ a, (f a).arena = a.arena) :
    Contained Room (modify f) :=
  contained_modify fun a c h => by
    unfold Room at h ⊢
    rw [hf a]
    exact h

theorem contained_interest :
    Contained Room (text options >>= fun span => modify (·.pushInterest span)) :=
  contained_bind (contained_text options) fun _ => contained_modify_room fun _ => rfl

theorem contained_premiumMember (account : Account) (key : Bytes) :
    Contained (fun _ => Room account) (premiumMember options key) := by
  have htimestamp : Contained (fun _ => Room account) (timestamp : Scan Premium Int) :=
    contained_read (onward_part account) (writesNothing_integerIn _ _)
  unfold premiumMember
  split
  · exact contained_bind htimestamp fun _ => contained_modify fun _ _ h => h
  split
  · exact contained_bind htimestamp fun _ => contained_modify fun _ _ h => h
  · exact contained_read (onward_part account) (writesNothing_skipValue _)

theorem contained_likeMember (account : Account) (key : Bytes) :
    Contained (fun _ => Room account) (likeMember options key) := by
  unfold likeMember
  split
  · exact contained_bind (contained_read (onward_part account) writesNothing_identifier) fun _ =>
      contained_modify fun _ _ h => h
  split
  · exact contained_bind (contained_read (onward_part account) (writesNothing_integerIn _ _))
      fun _ => contained_modify fun _ _ h => h
  · exact contained_read (onward_part account) (writesNothing_skipValue _)

theorem contained_like : Contained Room (like options) := by
  refine contained_bind contained_position fun _ => contained_bind
    (contained_withState fun account => contained_members (onward_part account)
      (contained_likeMember options account)) fun found => ?_
  obtain ⟨_, id, timestamp⟩ := found
  cases id with
  | none => exact contained_fail fun _ h => by cases h
  | some id =>
      cases timestamp with
      | none => exact contained_fail fun _ h => by cases h
      | some timestamp => exact contained_modify_room fun _ => rfl

theorem contained_value (field : Field) : Contained Room (value options field) := by
  have htimestamp : Contained Room (timestamp : Scan Account Int) :=
    contained_read onward_room (writesNothing_integerIn _ _)
  cases field with
  | id =>
      exact contained_bind (contained_read onward_room writesNothing_identifier) fun _ =>
        contained_modify_room fun _ => rfl
  | sex =>
      refine contained_bind contained_position fun _ =>
        contained_bind (contained_scratch options) fun bs => ?_
      cases Sex.ofCode? bs with
      | none => exact contained_fail fun _ h => by cases h
      | some sex => exact contained_modify_room fun _ => rfl
  | status =>
      refine contained_bind contained_position fun _ =>
        contained_bind (contained_scratch options) fun bs => ?_
      cases Status.ofLiteral? bs with
      | none => exact contained_fail fun _ h => by cases h
      | some status => exact contained_modify_room fun _ => rfl
  | text field =>
      exact contained_bind (contained_text options) fun _ => contained_modify_room fun _ => rfl
  | birth => exact contained_bind htimestamp fun _ => contained_modify_room fun _ => rfl
  | joined => exact contained_bind htimestamp fun _ => contained_modify_room fun _ => rfl
  | premium =>
      exact contained_bind (contained_withState fun account => contained_members
        (onward_part account) (contained_premiumMember options account)) fun _ =>
          contained_modify_room fun _ => rfl
  | interests =>
      exact contained_bind (contained_modify_room fun _ => rfl) fun _ =>
        contained_elements onward_room (contained_interest options)
  | likes =>
      exact contained_bind (contained_modify_room fun _ => rfl) fun _ =>
        contained_elements onward_room (contained_like options)

theorem contained_member (key : Bytes) : Contained Room (member options key) := by
  refine contained_bind (contained_skipSpace onward_room) fun _ => ?_
  cases Field.ofName? key with
  | none => exact contained_read onward_room (writesNothing_skipValue _)
  | some field => exact contained_value options field

theorem contained_record : Contained Room (record options) :=
  contained_members onward_room (contained_member options)

end Values

/-! ### Where values end -/

/-- While the items of a list are read, an item begins. -/
inductive ItemBegins (item : Scan σ Unit) : σ → Cursor → σ → Cursor → Prop
  | first (s : σ) (c : Cursor) : ItemBegins item s c s c
  | next {s s₁ s' : σ} {c d c' : Cursor} {u : Unit} {rest : Bytes}
      (hitem : item.run s c = .ok u s₁ d) (hcomma : d.skipSpace.rest = Byte.comma :: rest)
      (h : ItemBegins item s₁ (d.skipSpace.advance 1) s' c') : ItemBegins item s c s' c'

/-- While an array is read, an element begins. -/
inductive ElementBegins (element : Scan σ Unit) (s : σ) (c : Cursor) : σ → Cursor → Prop
  | mk {s' : σ} {d c' : Cursor} {u : Unit}
      (hopen : Record.expect Byte.openSquare c = .ok (u, d))
      (h : ItemBegins element s d.skipSpace s' c') : ElementBegins element s c s' c'

/-- While an object is read, the value of a member with this key begins. -/
inductive MemberBegins (member : Bytes → Scan σ Unit) (s : σ) (c : Cursor) (key : Bytes) :
    σ → Cursor → Prop
  | mk {s' : σ} {d e f c' : Cursor} {u v : Unit}
      (hopen : Record.expect Byte.openBrace c = .ok (u, d))
      (h : ItemBegins (keyed member) s d.skipSpace s' e)
      (hkey : Record.rawString e = .ok (key, f))
      (hcolon : Record.expect Byte.colon f = .ok (v, c')) :
      MemberBegins member s c key s' c'

/-- While a record is read, a value ends: that of a member of the record, an element of the interests
or the likes, or the value of a member of a like or of the premium time. The account is the one that
has been filled so far. -/
inductive ValueEnds (options : Options) (s : Account) (c : Cursor) : Account → Cursor → Prop
  | member {s₁ s' : Account} {c₁ d : Cursor} {key : Bytes} {u : Unit}
      (h : MemberBegins (member options) s c key s₁ c₁)
      (hend : (member options key).run s₁ c₁ = .ok u s' d) : ValueEnds options s c s' d
  | interest {s₁ s₂ s' : Account} {c₁ c₂ d : Cursor} {key : Bytes} {u : Unit}
      (h : MemberBegins (member options) s c key s₁ c₁) (hkey : Field.ofName? key = some .interests)
      (helement : ElementBegins (text options >>= fun span => modify (·.pushInterest span))
        s₁.clearInterests c₁.skipSpace s₂ c₂)
      (hend : (text options >>= fun span => modify (·.pushInterest span)).run s₂ c₂ = .ok u s' d) :
      ValueEnds options s c s' d
  | like {s₁ s₂ s' : Account} {c₁ c₂ d : Cursor} {key : Bytes} {u : Unit}
      (h : MemberBegins (member options) s c key s₁ c₁) (hkey : Field.ofName? key = some .likes)
      (helement : ElementBegins (like options) s₁.clearLikes c₁.skipSpace s₂ c₂)
      (hend : (like options).run s₂ c₂ = .ok u s' d) : ValueEnds options s c s' d
  | likeMember {s₁ s₂ : Account} {c₁ c₂ c₃ d : Cursor} {key part : Bytes} {t t' : PartialLike}
      {u : Unit} (h : MemberBegins (member options) s c key s₁ c₁)
      (hkey : Field.ofName? key = some .likes)
      (helement : ElementBegins (like options) s₁.clearLikes c₁.skipSpace s₂ c₂)
      (hmember : MemberBegins (likeMember options) {} c₂ part t c₃)
      (hend : (likeMember options part).run t c₃ = .ok u t' d) : ValueEnds options s c s₂ d
  | premiumMember {s₁ : Account} {c₁ c₂ d : Cursor} {key part : Bytes} {t t' : Premium} {u : Unit}
      (h : MemberBegins (member options) s c key s₁ c₁) (hkey : Field.ofName? key = some .premium)
      (hmember : MemberBegins (premiumMember options) .absent c₁.skipSpace part t c₂)
      (hend : (premiumMember options part).run t c₂ = .ok u t' d) : ValueEnds options s c s₁ d

theorem Contained.itemBegins {item : Scan σ Unit} {s s' : σ} {c c' : Cursor}
    (hitem : Contained I item) (hforward : Onward I) (h : ItemBegins item s c s' c') (hI : I s c) :
    I s' c' := by
  induction h with
  | first => exact hI
  | @next s s₁ s' c d c' u rest hrun hcomma _ ih =>
      have hreach := d.reaches_skipSpace.trans (Cursor.reaches_advance_one hcomma)
      exact ih (hforward (hitem.keeps hI hrun) hreach)

theorem Contained.elementBegins {element : Scan σ Unit} {s s' : σ} {c c' : Cursor}
    (helement : Contained I element) (hforward : Onward I) (h : ElementBegins element s c s' c')
    (hI : I s c) : I s' c' := by
  obtain ⟨hopen, h⟩ := h
  have hd := hforward hI ((reaches_of_expect hopen).1.trans (Cursor.reaches_skipSpace _))
  exact helement.itemBegins hforward h hd

theorem memberBegins_of_contained {member : Bytes → Scan σ Unit} {s s' : σ} {c c' : Cursor}
    {key : Bytes} (hmember : ∀ key, Contained I (member key)) (hforward : Onward I)
    (h : MemberBegins member s c key s' c') (hI : I s c) : I s' c' := by
  obtain ⟨hopen, h, hkey, hcolon⟩ := h
  have hd := hforward hI ((reaches_of_expect hopen).1.trans (Cursor.reaches_skipSpace _))
  have he := (contained_keyed hforward hmember).itemBegins hforward h hd
  exact hforward he ((reaches_of_rawString hkey).1.trans (reaches_of_expect hcolon).1)

/-- Where a value ends there is room for the rest of the record. -/
theorem ValueEnds.room {options : Options} {s s' : Account} {c d : Cursor}
    (h : ValueEnds options s c s' d) (hroom : Room s c) : Room s' d := by
  have hmember {key : Bytes} {s₁ : Account} {c₁ : Cursor}
      (h : MemberBegins (Scan.member options) s c key s₁ c₁) : Room s₁ c₁ :=
    memberBegins_of_contained (contained_member options) onward_room h hroom
  have hvalue {key : Bytes} {s₁ : Account} {c₁ : Cursor}
      (h : MemberBegins (Scan.member options) s c key s₁ c₁) {s₂ : Account}
      (harena : s₂.arena = s₁.arena) : Room s₂ c₁.skipSpace := by
    unfold Room
    rw [harena]
    exact (hmember h).forward (Cursor.reaches_skipSpace _)
  cases h with
  | member h hend => exact (contained_member options _).keeps (hmember h) hend
  | interest h _ helement hend =>
      have hbegin := (contained_interest options).elementBegins onward_room helement (hvalue h rfl)
      exact (contained_interest options).keeps hbegin hend
  | like h _ helement hend =>
      have hbegin := (contained_like options).elementBegins onward_room helement (hvalue h rfl)
      exact (contained_like options).keeps hbegin hend
  | likeMember h _ helement hpart hend =>
      have hbegin := (contained_like options).elementBegins onward_room helement (hvalue h rfl)
      have hpartBegin := memberBegins_of_contained (contained_likeMember options _)
        (onward_part _) hpart hbegin
      exact (contained_likeMember options _ _).keeps hpartBegin hend
  | premiumMember h _ hpart hend =>
      have hpartBegin := memberBegins_of_contained (contained_premiumMember options _)
        (onward_part _) hpart (hvalue h rfl)
      exact (contained_premiumMember options _ _).keeps hpartBegin hend

end Scan

/-! ### Whole records -/

theorem room_emptied {account : Account} {input : Bytes}
    (h : input.length ≤ account.arena.capacity) : Room (emptied account) (.start input) := by
  refine ⟨Nat.zero_le _, ?_⟩
  show 0 + input.length ≤ account.arena.capacity
  omega

theorem decode_ne_capacityExceeded {options : Options} {account : Account} {input : Bytes}
    (h : input.length ≤ account.arena.capacity) {o : Overflow} :
    (decode options account input).result ≠ .error (.capacityExceeded o) := by
  intro hresult
  rw [decode_eq] at hresult
  cases hrun : (Scan.record options).run (emptied account) (.start input) with
  | ok u s d =>
      rw [hrun] at hresult
      cases hresult
  | stop why s =>
      rw [hrun] at hresult
      cases why with
      | incomplete missing => cases hresult
      | fault fault =>
          cases hresult
          exact (Scan.contained_record options).fits (room_emptied h) hrun

end Intake.Record
